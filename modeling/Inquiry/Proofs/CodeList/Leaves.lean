import Mathlib
import Inquiry.CodeList.Basic
import Inquiry.Proofs.Run

/-!
The table of a code list with levels. A line is written when the next code shows that the present one
has nothing below it, with the codes on the way to it. No code comes after the last one, whose line is
therefore missing.
-/

namespace Inquiry

open List

namespace CodeList

-- The codes above one of level `l`, where the codes before it are given, the nearest first: its parent
-- is the nearest code of a lower level.
def ancestors : Nat → List String → List String
  | _, []      => []
  | l, b :: bs => if l ≤ level b then ancestors l bs else ancestors (level b) bs ++ [b]

-- The codes on the way to the first of the given ones, which come backwards.
def wayTo : List String → List String
  | []          => []
  | c :: before => ancestors (level c) before ++ [c]

def way (codes : List String) (i : Nat) : List String :=
  wayTo (codes.take (i + 1)).reverse

def isLeaf (codes : List String) (i : Nat) : Bool :=
  !codes[i + 1]?.any fun d => codes[i]?.any fun c => level c < level d

-- The codes on a way, filled up to four columns with the last of them.
def padded (cs : List String) : List String :=
  cs ++ List.replicate (4 - cs.length) (cs.getLastD "")

def row (cs : List String) : String :=
  "\t".intercalate (padded cs) ++ "\n"

-- The lines of the leaves among the first `n` codes.
def rows (codes : List String) (n : Nat) : String :=
  String.join (((List.range n).filter (isLeaf codes)).map (row <| way codes ·))

-- In a list in pre-order the levels start at 0, and deepen by one at most from a code to the next.
structure PreOrdered (codes : List String) : Prop where
  starts  : ∀ c ∈ codes[0]?, level c = 0
  deepens : codes.IsChain fun b c => level c ≤ level b + 1

variable {codes as bs : List String} {b c d : String} {l m : Nat} {w : Walk}

theorem level_lt_of_mem_ancestors (h : c ∈ ancestors l bs) : level c < l := by
  fun_induction ancestors l bs
  case case1 => simp at h
  case case2 ih => exact ih h
  case case3 hb ih =>
    cases mem_append.mp h
    case inl h => exact (ih h).trans (not_le.mp hb)
    case inr h => simp_all

-- What is above a code is found among what is above a deeper one at the same place.
theorem filter_ancestors (hl : l ≤ m) :
    (ancestors m bs).filter (level · < l) = ancestors l bs := by
  induction bs generalizing l m
  case nil => rfl
  case cons b bs ih =>
    by_cases hm : m ≤ level b
    case pos => simp [ancestors, hm, hl.trans hm, ih hl]
    by_cases hb : l ≤ level b
    case pos => simp [ancestors, hm, hb, ih hb]
    case neg =>
      have hkeep : ∀ c ∈ ancestors (level b) bs, level c < l := fun c hc =>
        (level_lt_of_mem_ancestors hc).trans (not_le.mp hb)
      simpa [ancestors, hm, hb, not_le.mp hb] using hkeep

theorem rows_succ (codes : List String) (n : Nat) :
    rows codes (n + 1) = rows codes n ++ if isLeaf codes n then row (way codes n) else "" := by
  simp only [rows, range_succ, filter_append, map_append, String.join_append]
  congr 1
  split <;> simp_all

theorem rows_append {n : Nat} (ds : List String) (hn : n < codes.length) :
    rows (codes ++ ds) n = rows codes n := by
  have hleaf : ∀ i ∈ List.range n, isLeaf (codes ++ ds) i = isLeaf codes i := fun i hi => by
    have hi := mem_range.mp hi
    rw [isLeaf, isLeaf, getElem?_append_left (by omega), getElem?_append_left (by omega)]
  rw [rows, rows, filter_congr hleaf]
  congr 1
  refine map_congr_left fun i hi => ?_
  have hi := mem_range.mp (mem_of_mem_filter hi)
  rw [way, way, take_append_of_le_length (by omega)]

theorem rows_concat (ds : List String) (d c : String) :
    rows (ds ++ [d] ++ [c]) (ds.length + 1) =
      rows (ds ++ [d]) ds.length ++ if level c ≤ level d then row (wayTo (d :: ds.reverse)) else "" := by
  rw [rows_succ, rows_append [c] (by simp)]
  have hway : way (ds ++ [d] ++ [c]) ds.length = wayTo (d :: ds.reverse) := by
    rw [way, take_left' (by simp)]
    simp
  have hleaf : isLeaf (ds ++ [d] ++ [c]) ds.length ↔ level c ≤ level d := by
    simp [isLeaf]
  rw [hway, if_congr hleaf rfl rfl]

theorem line_map_some (cs : List String) : line (cs.map some) = .ok ("\t".intercalate cs ++ "\n") := by
  have h : cs.mapM (pure : String → Except Failure String) = pure cs := by
    simpa using mapM_pure (m := Except Failure) (f := id) (l := cs)
  rw [line, mapM_map]
  exact congrArg (· >>= _) h

theorem above_map_some (l : Nat) (cs : List String) :
    above codeText l (cs.map some) = (cs.filter (level · < l)).map some := by
  rw [above, filter_map]
  rfl

theorem step_down (hd : w.level = some (level d)) (hlt : ¬level c ≤ level d) :
    w.step (some c) = .ok { w with codes := w.codes ++ [some c], level := some (level c) } := by
  rw [Walk.step, hd]
  exact if_neg (show ¬decide (level c ≤ level d) by simpa using hlt)

theorem step_back (hc : w.codes = (as ++ [d]).map some) (hd : w.level = some (level d))
    (hle : level c ≤ level d) :
    w.step (some c) = .ok {
      codes := (as.filter (level · < level c) ++ [c]).map some
      level := some (level c)
      text  := w.text ++ row (as ++ [d]) } := by
  have hfull : filled ((as ++ [d]).map some) = .ok ((padded (as ++ [d])).map some) := by
    simp [filled, padded]
  have habove : (padded (as ++ [d])).filter (level · < level c) = as.filter (level · < level c) := by
    simp [padded, hle]
  rw [Walk.step, hd, hc, hfull]
  refine (if_pos (show decide (level c ≤ level d) by simpa using hle)).trans ?_
  rw [ok_bind, line_map_some, ok_bind, above_map_some, map_append, ← habove]
  rfl

structure Walked (cs : List String) (w : Walk) : Prop where
  codes : w.codes = (wayTo cs.reverse).map some
  depth : w.level = cs.getLast?.map level
  text  : w.text = rows cs (cs.length - 1)

theorem Walked.step (h : Walked codes w) (c : String) :
    ∃ w', w.step (some c) = .ok w' ∧ Walked (codes ++ [c]) w' := by
  obtain ⟨hc, hd, ht⟩ := h
  rcases codes.eq_nil_or_concat' with rfl | ⟨ds, d, rfl⟩
  · exact ⟨_, by rw [Walk.step, hd]; rfl, by simp [hc, wayTo, ancestors], by simp [codeText],
      by simp [ht, rows]⟩
  simp only [reverse_append, reverse_singleton, singleton_append, wayTo] at hc
  simp only [getLast?_concat, Option.map_some] at hd
  have hrows := rows_concat ds d c
  by_cases hle : level c ≤ level d
  case pos =>
    refine ⟨_, step_back hc hd hle, ?_, by simp, ?_⟩
    · simp [wayTo, ancestors, hle, filter_ancestors hle]
    · simp_all [wayTo]
  case neg =>
    refine ⟨_, step_down hd hle, ?_, by simp, ?_⟩
    · simp [hc, wayTo, ancestors, hle]
    · simp_all

theorem exists_walk (codes : List String) :
    ∃ w, (codes.map some).foldlM Walk.step {} = .ok w ∧ Walked codes w := by
  induction codes using List.reverseRecOn
  case nil => exact ⟨{}, rfl, rfl, rfl, rfl⟩
  case append_singleton codes c ih =>
    obtain ⟨w, hw, ha⟩ := ih
    obtain ⟨w', hw', ha'⟩ := ha.step c
    refine ⟨w', ?_, ha'⟩
    rw [map_append, foldlM_append, hw, ok_bind]
    simpa using hw'

-- The level of a code at the place `i` that goes on from the codes before it.
def GoesOn (codes : List String) (l : Nat) : Nat → Prop
  | 0     => l = 0
  | i + 1 => ∀ b ∈ codes[i]?, l ≤ level b + 1

theorem PreOrdered.goesOn (h : PreOrdered codes) {i : Nat} (hc : codes[i]? = some c) :
    GoesOn codes (level c) i := by
  cases i
  case zero => exact h.starts c hc
  case succ i =>
    intro b hb
    obtain ⟨hi, rfl⟩ := List.getElem?_eq_some_iff.mp hb
    obtain ⟨hi', rfl⟩ := List.getElem?_eq_some_iff.mp hc
    exact isChain_iff_getElem.mp h.deepens i hi'

theorem levels_ancestors (h : PreOrdered codes) {n : Nat} (hn : n ≤ codes.length)
    (hl : GoesOn codes l n) : (ancestors l (codes.take n).reverse).map level = List.range l := by
  induction n generalizing l
  case zero => simp [ancestors, show l = 0 from hl]
  case succ n ih =>
    have hb : codes[n]? = some codes[n] := getElem?_eq_getElem hn
    rw [take_succ_eq_append_getElem hn, reverse_concat, ancestors]
    have hle := hl _ hb
    have hon := h.goesOn hb
    split
    case isTrue hlb =>
      refine ih (by omega) ?_
      cases n
      case zero   => exact Nat.le_zero.mp (hon ▸ hlb)
      case succ n => exact fun a ha => hlb.trans (hon a ha)
    case isFalse hlb =>
      have heq : l = level codes[n] + 1 := by omega
      simp [ih (by omega) hon, heq, range_succ]

-- In pre-order the way to a code leads through all levels above its own.
theorem levels_way (h : PreOrdered codes) {i : Nat} (hc : codes[i]? = some c) :
    (way codes i).map level = List.range (level c + 1) := by
  obtain ⟨hi, rfl⟩ := List.getElem?_eq_some_iff.mp hc
  rw [way, take_succ_eq_append_getElem hi, reverse_concat, wayTo, map_append,
    levels_ancestors h hi.le (h.goesOn hc), range_succ]
  rfl

-- The table has a line for each leaf, except for the last code.
theorem table_lacks_last_row (codes : List String) (h : PreOrdered codes) :
    (∀ i c, codes[i]? = some c → (way codes i).map level = List.range (level c + 1)) ∧
      table (codes.map some) = .ok (rows codes (codes.length - 1)) ∧
      (table (codes.map some) = .ok (rows codes codes.length) ↔ codes = []) := by
  obtain ⟨w, hw, hwalk⟩ := exists_walk codes
  have ht : table (codes.map some) = .ok (rows codes (codes.length - 1)) := by
    rw [table, hw, ← hwalk.text]
    rfl
  refine ⟨fun i c => levels_way h, ht, ?_⟩
  rcases codes.eq_nil_or_concat' with rfl | ⟨ds, d, rfl⟩
  case inl => exact iff_of_true ht rfl
  case inr =>
    have hleaf : isLeaf (ds ++ [d]) ds.length := by simp [isLeaf]
    have hlast := rows_succ (ds ++ [d]) ds.length
    rw [if_pos hleaf] at hlast
    refine iff_of_false (fun hall => ?_) (by simp)
    have hlen := congrArg String.length (Except.ok.inj (ht.symm.trans hall))
    simp [hlast, row] at hlen

theorem last_crime_without_row :
    PreOrdered ["9000000", "9010000", "9020000"] ∧
      table [some "9000000", some "9010000", some "9020000"] ≠
        .ok (rows ["9000000", "9010000", "9020000"] 3) := by
  have h : PreOrdered ["9000000", "9010000", "9020000"] := ⟨by decide +kernel, by decide +kernel⟩
  exact ⟨h, fun ht => by simpa using (table_lacks_last_row _ h).right.right.mp ht⟩

end CodeList
end Inquiry
