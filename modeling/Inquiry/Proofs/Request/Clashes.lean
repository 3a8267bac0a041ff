import Mathlib
import Inquiry.Proofs.Run
import Inquiry.Request.Condition

/-!
Clashes between the clues of constants. Constants stand in a line, and only the clue after one can be
the clue before the next. Each of the two gives up such a clue if it has another one at that time, so
that it may be given up by both.
-/

namespace Inquiry

open List Assoc

namespace Assoc

variable {κ α : Type} [DecidableEq κ] {m : Assoc κ α} {k l : κ} {a b : α}

theorem get?_eq_some_iff (h : (m.map Prod.fst).Nodup) : m.get? k = some a ↔ (k, a) ∈ m := by
  induction m
  case nil => simp [get?]
  case cons e m ih =>
    obtain ⟨hn, h⟩ := nodup_cons.mp h
    have hm : (e.1, a) ∉ m := fun hm => hn (mem_map.mpr ⟨_, hm, rfl⟩)
    have hget : get? (e :: m) k = if e.1 = k then some e.2 else get? m k := by
      by_cases he : e.1 = k <;> simp [get?, he]
    rw [hget, mem_cons, Prod.ext_iff]
    grind

theorem mem_put (h : (m.map Prod.fst).Nodup) :
    (l, b) ∈ m.put k a ↔ if l = k then b = a else (l, b) ∈ m := by
  induction m
  case nil => by_cases hl : l = k <;> simp [put, hl]
  case cons e m ih =>
    obtain ⟨hn, h⟩ := nodup_cons.mp h
    have hm : (e.1, b) ∉ m := fun hm => hn (mem_map.mpr ⟨_, hm, rfl⟩)
    by_cases he : e.1 = k <;> simp only [put, he, beq_iff_eq, if_true, if_false, mem_cons,
      Prod.ext_iff] <;> grind

theorem map_fst_put : (m.put k a).map Prod.fst =
    if k ∈ m.map Prod.fst then m.map Prod.fst else m.map Prod.fst ++ [k] := by
  induction m
  case nil => rfl
  case cons e m ih =>
    by_cases he : e.1 = k
    case pos => simp [put, he]
    case neg =>
      simp only [put, he, beq_iff_eq, if_false, map_cons, ih, mem_cons, Ne.symm he, false_or]
      split <;> simp

end Assoc

theorem exists_foldlM_ok {f : β → α → Except ε β} {J : List α → β → Prop} {as : List α} {b : β}
    (hb : J [] b) (step : ∀ done a rest b, as = done ++ a :: rest → J done b →
      ∃ b', f b a = .ok b' ∧ J (done ++ [a]) b') : ∃ b', as.foldlM f b = .ok b' ∧ J as b' := by
  induction as using List.reverseRecOn
  case nil => exact ⟨b, rfl, hb⟩
  case append_singleton as a ih =>
    obtain ⟨b₁, h₁, hj₁⟩ := ih fun done a' rest b₁ he => step done a' (rest ++ [a]) b₁ (by simp [he])
    obtain ⟨b₂, h₂, hj₂⟩ := step as a [] b₁ rfl hj₁
    exact ⟨b₂, by simp [foldlM_append, h₁, h₂, ok_bind], hj₂⟩

namespace Request

-- The constant at place `k` has the clue at place `c`.
def Has (cs : Clues) (k c : Int) : Prop :=
  ∃ places, (k, places) ∈ cs ∧ c ∈ places

-- Two constants have the clue at place `c`.
def Shared (cs : Clues) (c : Int) : Prop :=
  ∃ k l, k < l ∧ Has cs k c ∧ Has cs l c

-- Constants in the order of their places, on a list of length `N`. Each of them has at most one clue
-- on each side, and no other constant with clues stands in between.
structure InLine (N : Nat) (cs : Clues) : Prop where
  keys   : (cs.map Prod.fst).Pairwise (· < ·)
  sorted : ∀ e ∈ cs, e.2.Pairwise (· < ·)
  near   : ∀ k c, Has cs k c → c ≠ k ∧ (c - k).natAbs < N
  side   : ∀ k c d, Has cs k c → Has cs k d → (c < k ↔ d < k) → c = d
  apart  : ∀ k l c d, k < l → Has cs k c → Has cs l d → c < l ∧ k < d

variable {cs cs' : Clues} {i j k l c d x : Int} {is : List Int} {N : Nat}

namespace InLine

theorem nodup (h : InLine N cs) : (cs.map Prod.fst).Nodup :=
  h.keys.imp ne_of_lt

theorem sub (h : InLine N cs) (hk : cs'.map Prod.fst = cs.map Prod.fst)
    (hs : ∀ e ∈ cs', e.2.Pairwise (· < ·)) (hsub : ∀ k c, Has cs' k c → Has cs k c) :
    InLine N cs' where
  keys                := hk ▸ h.keys
  sorted              := hs
  near k c hc         := h.near k c (hsub k c hc)
  side k c d hc hd    := h.side k c d (hsub k c hc) (hsub k d hd)
  apart k l c d h' hc hd := h.apart k l c d h' (hsub k c hc) (hsub l d hd)

theorem eq_or_eq (h : InLine N cs) (hkl : k < l) (hk : Has cs k c) (hl : Has cs l c)
    (hj : Has cs j c) : j = k ∨ j = l := by
  have h₁ := h.apart k l c c hkl hk hl
  rcases lt_trichotomy j k with hjk | hjk | hjk
  · have := h.apart j k c c hjk hj hk
    omega
  · exact .inl hjk
  · rcases lt_trichotomy j l with hjl | hjl | hjl
    · have := h.apart j l c c hjl hj hl
      have := h.apart k j c c hjk hk hj
      omega
    · exact .inr hjl
    · have := h.apart l j c c hjl hl hj
      omega

end InLine

section Clashes

def note (found : Clues) (e : Int × Int) : Clues :=
  found.alter e.1 [] (· ++ [e.2])

-- What is noted: each constant for each other one that has the same clue.
def notes (cs : Clues) : List (Int × Int) :=
  cs.flatMap fun e => e.2.flatMap fun c =>
    (cs.filter fun e' => e'.1 != e.1 && e'.2.contains c).map fun _ => (c, e.1)

theorem clashes_eq_foldl (cs : Clues) : clashes cs = (notes cs).foldl note [] := by
  simp only [clashes, notes, foldl_flatMap, foldl_map, foldl_filter]
  rfl

theorem mem_notes : (c, k) ∈ notes cs ↔ Has cs k c ∧ ∃ l, l ≠ k ∧ Has cs l c := by
  simp only [notes, Has, mem_flatMap, mem_map, mem_filter, Prod.exists,
    Bool.and_eq_true, bne_iff_ne, contains_iff_mem, Prod.mk.injEq]
  grind

theorem notes_pairwise (h : InLine N cs) :
    (notes cs).Pairwise fun a b => a.2 < b.2 ∨ a.2 = b.2 ∧ a.1 < b.1 := by
  have hkeys := pairwise_map.mp h.keys
  refine pairwise_flatMap.mpr ⟨fun e he => pairwise_flatMap.mpr ⟨fun c hc => ?_, ?_⟩, ?_⟩
  · -- there is at most one other constant
    refine pairwise_map.mpr ((hkeys.filter _).imp_of_mem fun {a b} ha hb hab => ?_)
    simp only [mem_filter, Bool.and_eq_true, bne_iff_ne, contains_iff_mem] at ha hb
    have hab := h.eq_or_eq hab ⟨a.2, ha.left, ha.right.right⟩ ⟨b.2, hb.left, hb.right.right⟩
      ⟨e.2, he, hc⟩
    exact absurd hab (by grind)
  · refine (h.sorted e he).imp fun hcd x hx y hy => ?_
    grind
  · refine hkeys.imp fun hlt x hx y hy => ?_
    grind

theorem notes_sorted (h : InLine N cs) : ((notes cs).map Prod.fst).Pairwise (· ≤ ·) := by
  refine pairwise_map.mpr ((notes_pairwise h).imp_of_mem ?_)
  rintro ⟨c, k⟩ ⟨d, l⟩ ha hb (hkl | ⟨_, hcd⟩)
  case inr => exact hcd.le
  case inl =>
    obtain ⟨hkc, i, hik, hic⟩ := mem_notes.mp ha
    obtain ⟨hld, _⟩ := mem_notes.mp hb
    have h₁ := h.apart k l c d hkl hkc hld
    rcases lt_or_gt_of_ne hik with hik | hik
    · have := h.apart i k c c hik hic hkc
      dsimp only
      omega
    · -- the clue comes after the constant, so it is the one before the next
      have h₂ := h.apart k i c c hik hkc hic
      rcases lt_trichotomy i l with hil | rfl | hil
      · have := h.apart i l c d hil hic hld
        dsimp only
        omega
      · have := h.side i c d hic hld
        dsimp only
        omega
      · have := h.apart l i d c hil hld hic
        omega

-- If the clues come in order, each of them is entered once, with its constants in order.
theorem foldl_note {es : List (Int × Int)} (h : (es.map Prod.fst).Pairwise (· ≤ ·)) :
    ((es.foldl note []).map Prod.fst).Pairwise (· < ·) ∧ ∀ c is, (c, is) ∈ es.foldl note [] ↔
      is ≠ [] ∧ is = (es.filter (·.1 == c)).map Prod.snd := by
  induction es using List.reverseRecOn
  case nil => simp
  case append_singleton es e ih =>
    rw [map_append, pairwise_append] at h
    obtain ⟨hkeys, hmem⟩ := ih h.left
    have hnodup := hkeys.imp (ne_of_lt)
    rw [foldl_append, foldl_cons, foldl_nil, note, alter]
    refine ⟨?_, fun c is => ?_⟩
    · rw [map_fst_put]
      split
      case isTrue => exact hkeys
      case isFalse hn =>
        refine pairwise_append.mpr ⟨hkeys, by simp, fun a ha b hb => ?_⟩
        obtain rfl : b = e.1 := by simpa using hb
        refine lt_of_le_of_ne ?_ fun he => hn (he ▸ ha)
        obtain ⟨⟨a, is⟩, hm, rfl⟩ := mem_map.mp ha
        obtain ⟨hne, rfl⟩ := (hmem a is).mp hm
        obtain ⟨b, hb⟩ := exists_mem_of_ne_nil _ (mt map_eq_nil_iff.mpr hne)
        obtain ⟨hes, rfl⟩ : b ∈ es ∧ b.1 = a := by simpa using hb
        exact h.right.right _ (mem_map_of_mem hes) _ (by simp)
    · have hget : ((es.foldl note []).get? e.1).getD [] = (es.filter (·.1 == e.1)).map Prod.snd := by
        cases hg : (es.foldl note []).get? e.1
        case some is => exact ((hmem e.1 is).mp ((get?_eq_some_iff hnodup).mp hg)).right
        case none =>
          by_contra hne
          have hm := (hmem e.1 _).mpr ⟨Ne.symm hne, rfl⟩
          simp [(get?_eq_some_iff hnodup).mpr hm] at hg
      rw [mem_put hnodup, hget]
      by_cases hc : c = e.1
      case pos =>
        have hf : (es ++ [e]).filter (·.1 == c) = es.filter (·.1 == c) ++ [e] := by simp [hc]
        rw [if_pos hc, hf, map_append, hc]
        exact ⟨fun h => ⟨by simp [h], h⟩, And.right⟩
      case neg => simp [hc, hmem, Ne.symm hc]

theorem clashes_pairwise (h : InLine N cs) : ((clashes cs).map Prod.fst).Pairwise (· < ·) :=
  clashes_eq_foldl cs ▸ (foldl_note (notes_sorted h)).left

theorem mem_clashes (h : InLine N cs) :
    (c, is) ∈ clashes cs ↔ ∃ k l, k < l ∧ Has cs k c ∧ Has cs l c ∧ is = [k, l] := by
  have hmem (k : Int) : k ∈ ((notes cs).filter (·.1 == c)).map Prod.snd ↔
      Has cs k c ∧ ∃ l, l ≠ k ∧ Has cs l c := by
    rw [← mem_notes]
    simp
  have hsorted : (((notes cs).filter (·.1 == c)).map Prod.snd).Pairwise (· < ·) := by
    refine pairwise_map.mpr (((notes_pairwise h).filter _).imp_of_mem fun ha hb hab => ?_)
    grind
  have htwo (k l : Int) (hkl : k < l) (hk : Has cs k c) (hl : Has cs l c) :
      ((notes cs).filter (·.1 == c)).map Prod.snd = [k, l] := by
    refine hsorted.eq_of_mem_iff (by simpa using hkl) fun j => ?_
    rw [hmem, mem_pair]
    refine ⟨fun hj => h.eq_or_eq hkl hk hl hj.left, ?_⟩
    rintro (rfl | rfl)
    · exact ⟨hk, l, hkl.ne', hl⟩
    · exact ⟨hl, k, hkl.ne, hk⟩
  rw [clashes_eq_foldl, (foldl_note (notes_sorted h)).right]
  constructor
  · rintro ⟨hn, rfl⟩
    obtain ⟨k, hk⟩ := exists_mem_of_ne_nil _ hn
    obtain ⟨hk, l, hlk, hl⟩ := (hmem k).mp hk
    rcases lt_or_gt_of_ne hlk with hlt | hgt
    · exact ⟨l, k, hlt, hl, hk, htwo l k hlt hl hk⟩
    · exact ⟨k, l, hgt, hk, hl, htwo k l hgt hk hl⟩
  · rintro ⟨k, l, hkl, hk, hl, rfl⟩
    exact ⟨by simp, (htwo k l hkl hk hl).symm⟩

end Clashes

section Pass

-- A pass over the clashes, which takes a clue from those constants that are to give it up.
def pass (drops : Clues → Int → Int → List Int → Bool) (cs : Clues) : Except Failure Clues :=
  (clashes cs).foldlM (fun cs (c, is) =>
    is.foldlM (fun cs i => if drops cs i c is then takeClue cs i c else .ok cs) cs) cs

theorem has_of_mem (h : (cs.map Prod.fst).Nodup) (hi : (i, is) ∈ cs) : Has cs i x ↔ x ∈ is := by
  refine ⟨?_, fun hx => ⟨is, hi, hx⟩⟩
  rintro ⟨places, hp, hx⟩
  rw [← get?_eq_some_iff h] at hi hp
  exact Option.some.inj (hp.symm.trans hi) ▸ hx

theorem has_put (h : (cs.map Prod.fst).Nodup) :
    Has (cs.put i is) j x ↔ if j = i then x ∈ is else Has cs j x := by
  simp only [Has, mem_put h]
  by_cases hj : j = i <;> simp [hj]

-- What is left when the clues for which `G` holds are given up.
structure Remains (N : Nat) (cs : Clues) (G : Int → Int → Prop) (cs' : Clues) : Prop where
  inLine : InLine N cs'
  keys   : cs'.map Prod.fst = cs.map Prod.fst
  has    : ∀ j x, Has cs' j x ↔ Has cs j x ∧ ¬G j x

theorem exists_drop (h : InLine N cs) (hc : Has cs i c) (b : Bool) :
    ∃ cs', (if b then takeClue cs i c else .ok cs) = .ok cs' ∧
      Remains N cs (fun j x => b = true ∧ j = i ∧ x = c) cs' := by
  cases b
  case false => exact ⟨cs, rfl, h, rfl, by simp⟩
  case true =>
    obtain ⟨places, hi, hc⟩ := hc
    have hkeys : (cs.put i (places.erase c)).map Prod.fst = cs.map Prod.fst := by
      rw [map_fst_put, if_pos (mem_map.mpr ⟨_, hi, rfl⟩)]
    have hplaces := h.sorted _ hi
    have hhas (j x : Int) : Has (cs.put i (places.erase c)) j x ↔ Has cs j x ∧ ¬(j = i ∧ x = c) := by
      have hnodup : places.Nodup := hplaces.imp ne_of_lt
      rw [has_put h.nodup]
      split
      case isTrue hj  => simp [hj, has_of_mem h.nodup hi, hnodup.mem_erase_iff, and_comm]
      case isFalse hj => simp [hj]
    have htake : takeClue cs i c = .ok (cs.put i (places.erase c)) := by
      rw [takeClue, (get?_eq_some_iff h.nodup).mpr hi]
      simp [hc]
    refine ⟨_, htake, h.sub hkeys ?_ fun k c hc => ((hhas k c).mp hc).left, hkeys, by simpa using hhas⟩
    rintro ⟨j, ps⟩ he
    rw [mem_put h.nodup] at he
    split at he
    case isTrue  => exact he ▸ hplaces.sublist erase_sublist
    case isFalse => exact h.sorted _ he

variable {drops : Clues → Int → Int → List Int → Bool} {G : Int → Int → Prop}

theorem exists_pass_step (h : InLine N cs) (hkl : k < l) (hk : Has cs k c) (hl : Has cs l c)
    (hdrops : ∀ cs' i, InLine N cs' → i = k ∨ i = l →
      (∀ j x, x ≠ c → (Has cs' j x ↔ Has cs j x)) → Has cs' i c →
      (drops cs' i c [k, l] = true ↔ G i c)) :
    ∃ cs', [k, l].foldlM (fun cs i => if drops cs i c [k, l] then takeClue cs i c else .ok cs) cs =
      .ok cs' ∧ Remains N cs (fun j x => x = c ∧ G j x) cs' := by
  obtain ⟨cs₁, h₁, hin₁, hkeys₁, hhas₁⟩ := exists_drop h hk (drops cs k c [k, l])
  have hl₁ : Has cs₁ l c := (hhas₁ l c).mpr ⟨hl, by simp [hkl.ne']⟩
  obtain ⟨cs₂, h₂, hin₂, hkeys₂, hhas₂⟩ := exists_drop hin₁ hl₁ (drops cs₁ l c [k, l])
  refine ⟨cs₂, by simp [h₁, h₂, ok_bind], hin₂, hkeys₂.trans hkeys₁, fun j x => ?_⟩
  rw [hhas₂, hhas₁, hdrops cs k h (.inl rfl) (by simp) hk,
    hdrops cs₁ l hin₁ (.inr rfl) (fun j x hx => by simp [hhas₁, hx]) hl₁]
  have := h.eq_or_eq hkl hk hl (j := j)
  grind

-- A clue is given up by the time that the clashes before it have been resolved.
theorem exists_pass (h : InLine N cs) (hG : ∀ j x, Has cs j x → G j x → Shared cs x)
    (hdrops : ∀ cs' c k l i, InLine N cs' → k < l → Has cs k c → Has cs l c → i = k ∨ i = l →
      (∀ j x, x ≠ c → (Has cs' j x ↔ Has cs j x ∧ ¬(x < c ∧ G j x))) → Has cs' i c →
      (drops cs' i c [k, l] = true ↔ G i c)) :
    ∃ cs', pass drops cs = .ok cs' ∧ Remains N cs G cs' := by
  have hshared (j x : Int) (hx : Has cs j x) (hg : G j x) : x ∈ (clashes cs).map Prod.fst := by
    obtain ⟨k, l, hkl, hk, hl⟩ := hG j x hx hg
    exact mem_map.mpr ⟨_, (mem_clashes h).mpr ⟨k, l, hkl, hk, hl, rfl⟩, rfl⟩
  have step (done : Clues) (e : Int × List Int) (rest cs₀ : Clues)
      (he : clashes cs = done ++ e :: rest)
      (hJ : Remains N cs (fun j x => x ∈ done.map Prod.fst ∧ G j x) cs₀) :
      ∃ cs', e.2.foldlM (fun cs i => if drops cs i e.1 e.2 then takeClue cs i e.1 else .ok cs) cs₀ =
        .ok cs' ∧ Remains N cs (fun j x => x ∈ (done ++ [e]).map Prod.fst ∧ G j x) cs' := by
    obtain ⟨hin, hkeys, hhas⟩ := hJ
    obtain ⟨c, is⟩ := e
    obtain ⟨k, l, hkl, hk, hl, rfl⟩ := (mem_clashes h).mp (show (c, is) ∈ clashes cs by simp [he])
    have hsorted := clashes_pairwise h
    rw [he, map_append, pairwise_append] at hsorted
    -- what has been done is what comes before
    have hbefore (j x : Int) (hx : Has cs j x) (hg : G j x) : x ∈ done.map Prod.fst ↔ x < c := by
      refine ⟨fun hd => hsorted.right.right x hd c (by simp), fun hlt => ?_⟩
      have hm := hshared j x hx hg
      rw [he, map_append, mem_append, map_cons, mem_cons] at hm
      have hrest (hr : x ∈ rest.map Prod.fst) := rel_of_pairwise_cons hsorted.right.left hr
      grind
    have hc : c ∉ done.map Prod.fst := fun hd => lt_irrefl c (hsorted.right.right c hd c (by simp))
    have hk₀ : Has cs₀ k c := (hhas k c).mpr ⟨hk, fun hd => hc hd.left⟩
    have hl₀ : Has cs₀ l c := (hhas l c).mpr ⟨hl, fun hd => hc hd.left⟩
    obtain ⟨cs', hcs', hin', hkeys', hhas'⟩ := exists_pass_step hin hkl hk₀ hl₀ (G := G)
      fun cs' i hin' hi hsame => hdrops cs' c k l i hin' hkl hk hl hi fun j x hx => by
        rw [hsame j x hx, hhas]
        grind
    refine ⟨cs', hcs', hin', hkeys'.trans hkeys, fun j x => ?_⟩
    rw [hhas', hhas, map_append, mem_append, map_singleton, mem_singleton]
    grind
  obtain ⟨cs', hcs', hl, hk, hhas⟩ := exists_foldlM_ok (J := fun done =>
    Remains N cs fun j x => x ∈ done.map Prod.fst ∧ G j x) ⟨h, rfl, by simp⟩ step
  refine ⟨cs', hcs', hl, hk, fun j x => (hhas j x).trans (and_congr_right fun hx => not_congr ?_)⟩
  exact and_iff_right_of_imp (hshared j x hx)

end Pass

section Spare

-- The constant at place `j` gives up the clue at place `c`, since another one has it too and `j` has
-- one more clue. If `j` is the first of the two, this other clue has to be its own.
def GivesUp (cs : Clues) (j c : Int) : Prop :=
  ∃ i x, i ≠ j ∧ Has cs i c ∧ x ≠ c ∧ Has cs j x ∧ (j < i → ∀ h, Has cs h x → h = j)

theorem length_gt_one_iff (h : InLine N cs) (hc : Has cs i c) :
    ((cs.get? i).getD []).length > 1 ↔ ∃ x, x ≠ c ∧ Has cs i x := by
  obtain ⟨places, hi, hc⟩ := hc
  have hnodup : places.Nodup := (h.sorted _ hi).imp ne_of_lt
  simp only [(get?_eq_some_iff h.nodup).mpr hi, Option.getD_some, has_of_mem h.nodup hi]
  have hne := hnodup.ne_singleton_iff c
  cases places
  case nil          => simp at hc
  case cons a places => cases places <;> grind

-- The other clue of the first constant comes before it. It has been given up if it is shared.
theorem givesUp_left (h : InLine N cs) (hkl : k < l) (hk : Has cs k c) (hl : Has cs l c) :
    GivesUp cs k c ↔ ∃ x, x ≠ c ∧ Has cs k x ∧ ¬(x < c ∧ GivesUp cs k x) := by
  have hkc := (h.apart k l c c hkl hk hl).right
  constructor
  · rintro ⟨i, x, hik, hi, hxc, hx, honly⟩
    obtain rfl : i = l := (h.eq_or_eq hkl hk hl hi).resolve_left hik
    refine ⟨x, hxc, hx, ?_⟩
    rintro ⟨_, j, _, hjk, hj, _⟩
    exact hjk (honly hkl j hj)
  · rintro ⟨x, hxc, hx, hnot⟩
    have hxk : x < k := by
      by_contra hxk
      exact hxc (h.side k x c hx hk (by omega))
    refine ⟨l, x, hkl.ne', hl, hxc, hx, fun _ j hj => ?_⟩
    by_contra hjk
    refine hnot ⟨by omega, j, c, hjk, hj, hxc.symm, hk, fun hkj => ?_⟩
    have := (h.apart k j x x hkj hx hj).right
    omega

-- The other clue of the second constant comes after it.
theorem givesUp_right (h : InLine N cs) (hkl : k < l) (hk : Has cs k c) (hl : Has cs l c) :
    GivesUp cs l c ↔ ∃ x, x ≠ c ∧ Has cs l x ∧ ¬(x < c ∧ GivesUp cs l x) := by
  have hcl := (h.apart k l c c hkl hk hl).left
  constructor
  · rintro ⟨_, x, _, _, hxc, hx, _⟩
    refine ⟨x, hxc, hx, fun hlt => ?_⟩
    exact hxc (h.side l x c hx hl (by omega))
  · rintro ⟨x, hxc, hx, _⟩
    exact ⟨k, x, hkl.ne, hk, hxc, hx, fun hlk => absurd hlk hkl.not_gt⟩

theorem exists_spare (h : InLine N cs) :
    ∃ cs', spare cs = .ok cs' ∧ Remains N cs (GivesUp cs) cs' := by
  have hpass : spare cs = pass (fun cs i _ _ => ((cs.get? i).getD []).length > 1) cs := by
    simp [spare, pass]
  rw [hpass]
  refine exists_pass h ?_ fun cs' c k l i hin hkl hk hl hi hsame hc => ?_
  · rintro j x hj ⟨i, _, hij, hi, _⟩
    rcases lt_or_gt_of_ne hij with hlt | hgt
    · exact ⟨i, j, hlt, hi, hj⟩
    · exact ⟨j, i, hgt, hj, hi⟩
  · have hother : (∃ x, x ≠ c ∧ Has cs' i x) ↔
        ∃ x, x ≠ c ∧ Has cs i x ∧ ¬(x < c ∧ GivesUp cs i x) :=
      exists_congr fun x => and_congr_right fun hx => hsame i x hx
    rw [decide_eq_true_iff, length_gt_one_iff hin hc, hother]
    rcases hi with rfl | rfl
    · exact (givesUp_left h hkl hk hl).symm
    · exact (givesUp_right h hkl hk hl).symm

end Spare

section Settle

-- Another constant with the same clue is nearer to it than the one at place `j`, or as near and the
-- first one.
def Farther (cs : Clues) (j c : Int) : Prop :=
  ∃ i, Has cs i c ∧ ((c - i).natAbs < (c - j).natAbs ∨ (c - i).natAbs = (c - j).natAbs ∧ i < j)

theorem nearestTo_pair (h : (c - k).natAbs < N) :
    nearestTo N c [k, l] = if (c - k).natAbs ≤ (c - l).natAbs then k else l := by
  simp only [nearestTo, foldl_cons, foldl_nil, gt_iff_lt, h, if_true]
  split <;> split <;> first | rfl | omega

theorem farther_iff (h : InLine N cs) (hkl : k < l) (hk : Has cs k c) (hl : Has cs l c)
    (hj : j = k ∨ j = l) : Farther cs j c ↔ j ≠ nearestTo N c [k, l] := by
  rw [nearestTo_pair (h.near k c hk).right]
  constructor
  · rintro ⟨i, hi, hlt⟩
    have := h.eq_or_eq hkl hk hl hi
    grind
  · intro hne
    split at hne
    case isTrue hle =>
      obtain rfl := hj.resolve_left hne
      exact ⟨k, hk, by omega⟩
    case isFalse hlt =>
      obtain rfl := hj.resolve_right hne
      exact ⟨l, hl, by omega⟩

theorem exists_settle (h : InLine N cs) :
    ∃ cs', settle N cs = .ok cs' ∧ Remains N cs (Farther cs) cs' := by
  have hpass : settle N cs = pass (fun _ i c is => i != nearestTo N c is) cs := rfl
  rw [hpass]
  refine exists_pass h ?_ fun cs' c k l i _ hkl hk hl hi _ _ => ?_
  · rintro j x hj ⟨i, hi, hlt⟩
    rcases lt_trichotomy i j with hij | rfl | hji
    · exact ⟨i, j, hij, hi, hj⟩
    · omega
    · exact ⟨j, i, hji, hj, hi⟩
  · rw [bne_iff_ne, farther_iff h hkl hk hl hi]

theorem existsUnique_not_farther (h : InLine N cs) (hi : Has cs i c) :
    ∃! k, Has cs k c ∧ ¬Farther cs k c := by
  by_cases hs : Shared cs c
  case pos =>
    obtain ⟨k, l, hkl, hk, hl⟩ := hs
    refine ⟨nearestTo N c [k, l], ?_, fun j hj => ?_⟩
    · have hn : nearestTo N c [k, l] = k ∨ nearestTo N c [k, l] = l := by
        rw [nearestTo_pair (h.near k c hk).right]
        exact ite_eq_or_eq ..
      refine ⟨by rcases hn with hn | hn <;> rwa [hn], ?_⟩
      simp [farther_iff h hkl hk hl hn]
    · simpa [farther_iff h hkl hk hl (h.eq_or_eq hkl hk hl hj.left)] using hj.right
  case neg =>
    have hu (j : Int) (hj : Has cs j c) : j = i := by
      by_contra hne
      rcases lt_or_gt_of_ne hne with hlt | hgt
      · exact hs ⟨j, i, hlt, hj, hi⟩
      · exact hs ⟨i, j, hgt, hi, hj⟩
    refine ⟨i, ⟨hi, ?_⟩, fun j hj => hu j hj.left⟩
    rintro ⟨j, hj, hlt⟩
    obtain rfl := hu j hj
    omega

end Settle

-- What the two passes leave. A clue has one constant, unless each one gave it up.
theorem exists_resolved (h : InLine N cs) : ∃ cs₁ cs', spare cs = .ok cs₁ ∧ settle N cs₁ = .ok cs' ∧
    cs'.map Prod.fst = cs.map Prod.fst ∧ (∀ k c, Has cs' k c → Has cs k c ∧ ¬GivesUp cs k c) ∧
    ∀ k c, Has cs k c → ¬GivesUp cs k c → ∃! k, Has cs' k c := by
  obtain ⟨cs₁, h₁, hin, hkeys₁, hhas₁⟩ := exists_spare h
  obtain ⟨cs', h', _, hkeys', hhas'⟩ := exists_settle hin
  refine ⟨cs₁, cs', h₁, h', hkeys'.trans hkeys₁, fun k c hc => ?_, fun k c hc hk => ?_⟩
  · exact (hhas₁ k c).mp ((hhas' k c).mp hc).left
  · have hone := existsUnique_not_farther hin ((hhas₁ k c).mpr ⟨hc, hk⟩)
    simpa only [hhas'] using hone

end Request
end Inquiry
