import Mathlib
import Inquiry.Proofs.Run
import Inquiry.Request.Condition

/-!
The words around a constant. A pattern sees the two known words on either side of its mark. A
constant has at most one clue before it and one after it, and all of its clues stand nearer to it
than any other constant does.
-/

namespace Inquiry

open List

namespace Keyword

variable {ks : List String} {read : Int → Except Failure String} {k n : Int}

-- The word at a place that may be off the list.
def wordAt (ks : List String) (n : Int) : Option String :=
  if 0 ≤ n then ks[n.toNat]? else none

def IsKnown (ks : List String) (n : Int) : Prop :=
  ∃ w, wordAt ks n = some w ∧ w ≠ unknown

theorem wordAt_natCast (ks : List String) (i : Nat) : wordAt ks i = ks[i]? := by
  simp [wordAt]

theorem nonneg_of_wordAt {w : String} (h : wordAt ks n = some w) : 0 ≤ n ∧ n < ks.length := by
  rw [wordAt] at h
  split at h
  case isTrue hn =>
    obtain ⟨hlt, _⟩ := List.getElem?_eq_some_iff.mp h
    omega
  case isFalse => simp at h

theorem get_of_wordAt {w : String} (h : wordAt ks n = some w) : Sequence.get ks n = .ok w := by
  obtain ⟨i, rfl⟩ := Int.eq_ofNat_of_zero_le (nonneg_of_wordAt h).left
  exact Sequence.get_natCast (wordAt_natCast ks i ▸ h)

theorem exists_wordAt (hn : 0 ≤ n) (hl : n < ks.length) : ∃ w, wordAt ks n = some w := by
  obtain ⟨i, rfl⟩ := Int.eq_ofNat_of_zero_le hn
  exact ⟨ks[i], by rw [wordAt_natCast]; exact getElem?_eq_getElem (by omega)⟩

theorem IsKnown.ne {j : Int} (hj : IsKnown ks j) (hn : wordAt ks n = some unknown) : j ≠ n := by
  rintro rfl
  obtain ⟨w, hw, hu⟩ := hj
  exact hu (Option.some.inj (hw.symm.trans hn))

-- Words are read as those of a list, whatever is done at places that are off the list.
def Reads (ks : List String) (read : Int → Except Failure String) : Prop :=
  ∀ n w, wordAt ks n = some w → read n = .ok w

theorem reads_get (ks : List String) : Reads ks (Sequence.get ks) :=
  fun _ _ => get_of_wordAt

theorem forwardFrom_spec (ks : List String) (n : Int) (hn : 0 ≤ n) :
    ∃ f, (∀ read, Reads ks read → forwardFrom read ks.length n = .ok f) ∧ n ≤ f ∧
      (∀ j, n ≤ j → IsKnown ks j → f ≤ j) ∧ (f < ks.length → IsKnown ks f) := by
  induction n using forwardFrom.induct ks.length
  case case1 n hl ih =>
    obtain ⟨w, hw⟩ := exists_wordAt hn hl
    by_cases hu : w = unknown
    case neg =>
      refine ⟨n, fun read hr => ?_, le_rfl, fun j hj _ => hj, fun _ => ⟨w, hw, hu⟩⟩
      rw [forwardFrom, if_pos hl, hr n w hw]
      simp [hu, pure, Except.pure]
    case pos =>
      obtain ⟨f, hf, hle, hfirst, hknown⟩ := ih (by omega)
      refine ⟨f, fun read hr => ?_, by omega, fun j hj hk => hfirst j ?_ hk, hknown⟩
      · rw [forwardFrom, if_pos hl, hr n w hw]
        simp [hu, hf read hr]
      · -- the place itself holds an unknown word
        have hne := hk.ne (hu ▸ hw)
        omega
  case case2 n hl =>
    exact ⟨n, fun _ _ => by rw [forwardFrom, if_neg hl], le_rfl, fun j hj _ => hj, (absurd · hl)⟩

theorem backFrom_spec (ks : List String) (n : Int) (hn : n < ks.length) :
    ∃ b, (∀ read, Reads ks read → backFrom read n = .ok b) ∧ b ≤ n ∧
      (∀ j, j ≤ n → IsKnown ks j → j ≤ b) ∧ (0 ≤ b → IsKnown ks b) := by
  induction n using backFrom.induct
  case case1 n hz ih =>
    obtain ⟨w, hw⟩ := exists_wordAt hz hn
    by_cases hu : w = unknown
    case neg =>
      refine ⟨n, fun read hr => ?_, le_rfl, fun j hj _ => hj, fun _ => ⟨w, hw, hu⟩⟩
      rw [backFrom, if_pos hz, hr n w hw]
      simp [hu, pure, Except.pure]
    case pos =>
      obtain ⟨b, hb, hle, hlast, hknown⟩ := ih (by omega)
      refine ⟨b, fun read hr => ?_, by omega, fun j hj hk => hlast j ?_ hk, hknown⟩
      · rw [backFrom, if_pos hz, hr n w hw]
        simp [hu, hb read hr]
      · have hne := hk.ne (hu ▸ hw)
        omega
  case case2 n hz =>
    exact ⟨n, fun _ _ => by rw [backFrom, if_neg hz], le_rfl, fun j hj _ => hj, (absurd · hz)⟩

-- The first known place after `k`, or one after all of them.
structure Next (ks : List String) (k f : Int) : Prop where
  lt    : k < f
  first : ∀ j, k < j → IsKnown ks j → f ≤ j
  known : f < ks.length → IsKnown ks f

-- The last known place before `k`, or one before all of them.
structure Previous (ks : List String) (k b : Int) : Prop where
  lt    : b < k
  last  : ∀ j, j < k → IsKnown ks j → j ≤ b
  known : 0 ≤ b → IsKnown ks b

theorem exists_next (ks : List String) (hk : 0 ≤ k) :
    ∃ f, (∀ read, Reads ks read → forwardFrom read ks.length (k + 1) = .ok f) ∧ Next ks k f := by
  obtain ⟨f, hf, hle, hfirst, hknown⟩ := forwardFrom_spec ks (k + 1) (by omega)
  exact ⟨f, hf, by omega, fun j hj => hfirst j (by omega), hknown⟩

theorem exists_previous (hk : k ≤ ks.length) :
    ∃ b, (∀ read, Reads ks read → backFrom read (k - 1) = .ok b) ∧ Previous ks k b := by
  obtain ⟨b, hb, hle, hlast, hknown⟩ := backFrom_spec ks (k - 1) (by omega)
  exact ⟨b, hb, by omega, fun j hj => hlast j (by omega), hknown⟩

-- The known places next to a place.
structure Around (ks : List String) (k b₂ b₁ f₁ f₂ : Int) : Prop where
  next    : Next ks k f₁
  second  : Next ks f₁ f₂
  before  : Previous ks k b₁
  farther : Previous ks b₁ b₂

theorem exists_context (hk : 0 ≤ k) (hl : k < ks.length) : ∃ b₂ b₁ f₁ f₂,
    (∀ read, Reads ks read → contextBy read ks.length k = .ok [b₂, b₁, f₁, f₂]) ∧
      Around ks k b₂ b₁ f₁ f₂ := by
  obtain ⟨f₁, hf₁, hnext⟩ := exists_next ks hk
  obtain ⟨f₂, hf₂, hsecond⟩ := exists_next ks (hk.trans hnext.lt.le)
  obtain ⟨b₁, hb₁, hbefore⟩ := exists_previous hl.le
  obtain ⟨b₂, hb₂, hfarther⟩ := exists_previous (hbefore.lt.trans hl).le
  refine ⟨b₂, b₁, f₁, f₂, fun read hr => ?_, hnext, hsecond, hbefore, hfarther⟩
  simp [contextBy, hf₁ read hr, hf₂ read hr, hb₁ read hr, hb₂ read hr, pure, Except.pure]

theorem holds_eq (hr : Reads ks read) (p : String) (n : Int) :
    holds read ks.length p (some n) = .ok (wordAt ks n == some p) := by
  rw [holds]
  split
  case isTrue h =>
    obtain ⟨w, hw⟩ := exists_wordAt h.right h.left
    simp [hr n w hw, hw, pure, Except.pure, eq_comm]
  case isFalse h =>
    have hw : wordAt ks n = none := by
      by_contra hn
      obtain ⟨w, hw⟩ := Option.ne_none_iff_exists'.mp hn
      obtain ⟨h₁, h₂⟩ := nonneg_of_wordAt hw
      exact h ⟨h₂, h₁⟩
    simp [hw]

end Keyword

namespace Request

open Keyword

variable {ks ps : List String} {k b₂ b₁ f₁ f₂ n : Int} {c : Nat} {b : Bool}

def placeIf (b : Bool) (n : Int) : Int :=
  if b then n else -1

section

variable {read : Int → Except Failure String} {bs as qs : List String} {ws us vs xs : List Int}
  {around : List (Option Int)} {i clue past : Nat} (hr : Reads ks read)

include hr in
theorem fits_cons {p : String} (hi : i ≠ c)
    (hn : Sequence.get around (contextOffset around c i past) = .ok (some n)) :
    fits read ks.length around c (p :: ps) i past =
      if wordAt ks n = some p then fits read ks.length around c ps (i + 1) past else .ok false := by
  rw [fits, if_neg (by simpa using hi), hn, ok_bind, holds_eq hr, ok_bind]
  by_cases h : wordAt ks n = some p <;> simp [h, pure, Except.pure]

-- The words on one side of the mark of a pattern are held against the places `ns`.
include hr in
theorem fits_append {ns : List Int} (hl : ns.length = ps.length)
    (hn : ∀ j n, ns[j]? = some n → i + j ≠ c ∧
      Sequence.get around (contextOffset around c (i + j) past) = .ok (some n)) :
    fits read ks.length around c (ps ++ qs) i past =
      if ns.map (wordAt ks) = ps.map some
      then fits read ks.length around c qs (i + ps.length) past else .ok false := by
  induction ps generalizing ns i
  case nil =>
    obtain rfl := eq_nil_of_length_eq_zero hl
    simp
  case cons p ps ih =>
    obtain ⟨n, ns, rfl⟩ := exists_cons_of_length_eq_add_one hl
    obtain ⟨hi, hg⟩ : i ≠ c ∧ _ := hn 0 n rfl
    have hns j m (hm : ns[j]? = some m) := Nat.succ_add_eq_add_succ i j ▸ hn (j + 1) m hm
    rw [cons_append, fits_cons hr hi hg, ih (Nat.succ.inj hl) hns]
    by_cases hp : wordAt ks n = some p <;> simp [hp, Nat.add_assoc, Nat.add_comm 1]

-- Of the places around a mark, `us` and `vs` are those next to it.
variable (hl : (ws ++ us).length = (vs ++ xs).length)

include hl in
theorem contextOffset_eq (i past : Nat) :
    contextOffset ((ws ++ us ++ (vs ++ xs)).map some) us.length i past =
      (ws.length + i : Nat) - past := by
  rw [contextOffset, length_map, length_append, ← hl, ← Nat.two_mul,
    Nat.mul_div_cancel_left _ two_pos, length_append]
  omega

include hl in
theorem get_before (h : us[i]? = some n) :
    Sequence.get ((ws ++ us ++ (vs ++ xs)).map some)
      (contextOffset ((ws ++ us ++ (vs ++ xs)).map some) us.length i 0) = .ok (some n) := by
  rw [contextOffset_eq hl, Nat.cast_zero, sub_zero]
  apply Sequence.get_natCast
  grind

include hl in
theorem get_after (h : vs[i]? = some n) :
    Sequence.get ((ws ++ us ++ (vs ++ xs)).map some)
      (contextOffset ((ws ++ us ++ (vs ++ xs)).map some) us.length (us.length + 1 + i) 1) =
        .ok (some n) := by
  rw [contextOffset_eq hl, ← Nat.cast_sub (by omega)]
  apply Sequence.get_natCast
  grind

variable (hb : us.length = bs.length) (ha : vs.length = as.length)

include hr hl hb ha in
theorem fits_eq :
    fits read ks.length ((ws ++ us ++ (vs ++ xs)).map some) us.length (bs ++ "*" :: as) 0 0 =
      .ok (us.map (wordAt ks) = bs.map some ∧ vs.map (wordAt ks) = as.map some : Bool) := by
  have hafter : fits read ks.length _ us.length (as ++ []) (us.length + 1) 1 = _ :=
    fits_append hr ha fun j n hn => ⟨by omega, get_after hl hn⟩
  rw [append_nil] at hafter
  rw [fits_append hr hb fun j n hn => ?_, Nat.zero_add, ← hb, fits,
    if_pos (beq_self_eq_true _), hafter]
  · split_ifs <;> simp [fits, *]
  · obtain ⟨hj, -⟩ := List.getElem?_eq_some_iff.mp hn
    rw [Nat.zero_add]
    exact ⟨hj.ne, get_before hl hn⟩

variable (bs as ws us vs xs clue) in
include hr hl hb ha in
theorem clueIndexBy_eq (hm : "*" ∉ bs) (hne : clue ≠ bs.length)
    (hn : (us ++ k :: vs)[clue]? = some n) :
    clueIndexBy read ks.length (bs ++ "*" :: as) clue ((ws ++ us ++ (vs ++ xs)).map some) =
      .ok (some (placeIf
        (us.map (wordAt ks) = bs.map some ∧ vs.map (wordAt ks) = as.map some) n)) := by
  have hc : (bs ++ "*" :: as).findIdx? (· == "*") = some us.length := by
    rw [hb, findIdx?_append, findIdx?_eq_none_iff.mpr (by grind)]
    simp [findIdx?_cons]
  have hg : Sequence.get ((ws ++ us ++ (vs ++ xs)).map some)
      (contextOffset ((ws ++ us ++ (vs ++ xs)).map some) us.length clue
        (if (clue : Int) > us.length then 1 else 0)) = .ok (some n) := by
    obtain hlt | hgt := lt_or_gt_of_ne (hb ▸ hne)
    · rw [getElem?_append_left hlt] at hn
      rw [if_neg (by omega)]
      exact get_before hl hn
    · obtain ⟨j, rfl⟩ := Nat.exists_eq_add_of_lt hgt
      rw [getElem?_append_right (by omega), Nat.add_assoc, Nat.add_sub_cancel_left,
        getElem?_cons_succ] at hn
      rw [if_pos (by omega), Nat.add_right_comm]
      exact get_after hl hn
  rw [contextOffset, Nat.cast_ite] at hg
  simp only [clueIndexBy, hc, fits_eq hr hl hb ha, ok_bind, placeIf]
  split
  · exact hg
  · rfl

-- The words of a pattern are the known ones next to place `k`, on both sides of it.
structure Surrounds (ks bs as : List String) (k : Int) (us vs : List Int) : Prop where
  before   : us.map (wordAt ks) = bs.map some
  after    : vs.map (wordAt ks) = as.map some
  previous : IsChain (Previous ks) (k :: us.reverse)
  next     : IsChain (Next ks) (k :: vs)

theorem bounds_of_mem {ns : List Int} {ps : List String} (h : ns.map (wordAt ks) = ps.map some)
    (hn : n ∈ ns) : 0 ≤ n ∧ n < ks.length := by
  obtain ⟨p, -, hp⟩ := mem_map.mp (h ▸ mem_map_of_mem hn)
  exact nonneg_of_wordAt hp.symm

theorem eq_take_of_isChain {R : Int → Int → Prop} {fs : List Int} (hf : IsChain R (k :: fs))
    (hv : IsChain R (k :: vs)) (hR : ∀ i j, ∀ n ∈ vs, R i j → R i n → n = j)
    (hl : vs.length ≤ fs.length) : vs = fs.take vs.length := by
  induction vs generalizing k fs
  case nil => rfl
  case cons v vs ih =>
    obtain ⟨f, fs, rfl⟩ := exists_cons_of_length_pos (Nat.zero_lt_of_lt hl)
    rw [isChain_cons_cons] at hf hv
    obtain rfl := hR k f v mem_cons_self hf.left hv.left
    rw [length_cons, take_succ_cons, ← ih hf.right hv.right
      (fun i j n hn => hR i j n (mem_cons_of_mem v hn)) (Nat.le_of_succ_le_succ hl)]

theorem Surrounds.eq (h : Surrounds ks bs as k us vs) (hb : bs.length ≤ 2) (ha : as.length ≤ 2)
    (hk : Around ks k b₂ b₁ f₁ f₂) :
    us = [b₂, b₁].drop (2 - bs.length) ∧ vs = [f₁, f₂].take as.length := by
  have hus : us.length = bs.length := by simpa using congrArg length h.before
  have hvs : vs.length = as.length := by simpa using congrArg length h.after
  have hr : us.reverse = [b₁, b₂].take us.reverse.length := by
    refine eq_take_of_isChain (by simp [hk.before, hk.farther]) h.previous
      (fun i j n hn hj hi => ?_) (by simpa [hus])
    obtain ⟨hn, -⟩ := bounds_of_mem h.before (mem_reverse.mp hn)
    have hle := hj.last n hi.lt (hi.known hn)
    exact hle.antisymm (hi.last j hj.lt (hj.known (hn.trans hle)))
  have hv : vs = [f₁, f₂].take vs.length := by
    refine eq_take_of_isChain (by simp [hk.next, hk.second]) h.next (fun i j n hn hj hi => ?_)
      (by simpa [hvs])
    obtain ⟨-, hn⟩ := bounds_of_mem h.after hn
    have hle := hj.first n hi.lt (hi.known hn)
    exact (hi.first j hj.lt (hj.known (hle.trans_lt hn))).antisymm hle
  rw [length_reverse, hus, reverse_eq_iff, reverse_take] at hr
  exact ⟨hr, hvs ▸ hv⟩

-- A pattern is seen if its words are the known ones next to its mark, and the place of the clue is
-- found then. However places off the list are read, the same is found: no such place is read.
theorem clue_seen_around (ks bs as : List String) (k : Int) (clue : Nat) (hk : 0 ≤ k)
    (hl : k < ks.length) (hb : bs.length ≤ 2) (ha : as.length ≤ 2) (hm : "*" ∉ bs)
    (hc : clue < (bs ++ "*" :: as).length) (hne : clue ≠ bs.length) :
    ∃ around r, context ks k = .ok around ∧
      clueIndex (bs ++ "*" :: as) clue (around.map some) ks = .ok (some r) ∧
      (∀ us vs, Surrounds ks bs as k us vs → (us ++ k :: vs)[clue]? = some r) ∧
      ((¬∃ us vs, Surrounds ks bs as k us vs) → r = -1) ∧
      ∀ read, Reads ks read → contextBy read ks.length k = .ok around ∧
        clueIndexBy read ks.length (bs ++ "*" :: as) clue (around.map some) = .ok (some r) := by
  obtain ⟨b₂, b₁, f₁, f₂, hcontext, hk⟩ := exists_context hk hl
  have hws := take_append_drop (2 - bs.length) [b₂, b₁]
  have hxs := take_append_drop as.length [f₁, f₂]
  have hus : ([b₂, b₁].drop (2 - bs.length)).length = bs.length := by grind
  have hvs : ([f₁, f₂].take as.length).length = as.length := by simpa using ha
  obtain ⟨n, hn⟩ : ∃ n, ([b₂, b₁].drop (2 - bs.length) ++ k :: [f₁, f₂].take as.length)[clue]? =
      some n := ⟨_, getElem?_eq_getElem (by grind)⟩
  have hread read (hr : Reads ks read) := And.intro (hcontext read hr)
    (clueIndexBy_eq bs as _ _ _ _ clue hr (by rw [hws, hxs]; rfl) hus hvs hm hne hn)
  rw [hws, hxs] at hread
  refine ⟨_, _, (hread _ (reads_get ks)).left, (hread _ (reads_get ks)).right,
    fun us vs hs => ?_, fun hs => ?_, hread⟩
  · obtain ⟨rfl, rfl⟩ := hs.eq hb ha hk
    simpa [placeIf, hs.before, hs.after] using hn
  · rw [placeIf, if_neg]
    rw [decide_eq_true_eq]
    rintro ⟨before, after⟩
    refine hs ⟨_, _, before, after, ?_, ?_⟩
    · rw [reverse_drop]
      exact IsChain.take (l := [k, b₁, b₂]) (by simp [hk.before, hk.farther]) (_ + 1)
    · exact IsChain.take (l := [k, f₁, f₂]) (by simp [hk.next, hk.second]) (_ + 1)

theorem relation_seen_past_unknown :
    ∃ around, context [prep, unknown, constant, unknown, relation] 2 = .ok around ∧
      clueIndex [prep, "*", relation] 2 (around.map some)
        [prep, unknown, constant, unknown, relation] = .ok (some 4) := by
  obtain ⟨around, r, hc, hi, hs, -⟩ :=
    clue_seen_around [prep, unknown, constant, unknown, relation] [prep] [relation] 2 2 (by decide)
      (by decide) (by decide) (by decide) (by decide) (by decide) (by decide)
  have hp : Previous [prep, unknown, constant, unknown, relation] 2 0 := by
    refine ⟨by decide, fun j hj h => ?_, fun _ => ⟨prep, rfl, by decide⟩⟩
    have hne := h.ne (n := 1) rfl
    omega
  have hn : Next [prep, unknown, constant, unknown, relation] 2 4 := by
    refine ⟨by decide, fun j hj h => ?_, fun _ => ⟨relation, rfl, by decide⟩⟩
    have hne := h.ne (n := 3) rfl
    omega
  have hr : some 4 = some r := hs [0] [4] ⟨rfl, rfl, .cons_cons hp (.singleton 0),
    .cons_cons hn (.singleton 4)⟩
  cases hr
  exact ⟨around, hc, hi⟩

end

theorem clues_eq (h : context ks k = .ok [b₂, b₁, f₁, f₂]) : clues ks k = .ok [
    placeIf (wordAt ks b₂ = some relation ∧ wordAt ks b₁ = some prep) b₂,
    placeIf (wordAt ks b₁ = some prep ∧ wordAt ks f₁ = some relation) f₁,
    placeIf (wordAt ks b₁ = some category) b₁,
    placeIf (wordAt ks f₁ = some category) f₁,
    placeIf (wordAt ks f₁ = some question ∧ wordAt ks f₂ = some relation) f₂] := by
  have hr := reads_get ks
  have e₁ := clueIndexBy_eq (k := k) [relation, prep] [] [] [b₂, b₁] [] [f₁, f₂] 0 hr rfl rfl rfl
    (by decide) (by decide) rfl
  have e₂ := clueIndexBy_eq (k := k) [prep] [relation] [b₂] [b₁] [f₁] [f₂] 2 hr rfl rfl rfl
    (by decide) (by decide) rfl
  have e₃ := clueIndexBy_eq (k := k) [category] [] [b₂] [b₁] [] [f₁, f₂] 0 hr rfl rfl rfl
    (by decide) (by decide) rfl
  have e₄ := clueIndexBy_eq (k := k) [] [category] [b₂, b₁] [] [f₁] [f₂] 1 hr rfl rfl rfl
    (by decide) (by decide) rfl
  have e₅ := clueIndexBy_eq (k := k) [] [question, relation] [b₂, b₁] [] [f₁, f₂] [] 2 hr rfl rfl
    rfl (by decide) (by decide) rfl
  simp_all [clues, cluePatterns, clueIndex]

-- A constant, with the clue before it and the one after it.
structure Neighbour where
  key    : Int
  before : Option Int
  after  : Option Int

def Neighbour.places (n : Neighbour) : List Int :=
  n.before.toList ++ n.after.toList

-- A clue stands at a relation or a category, between the constant at `k` and all others.
def Neighbour.Near (ks : List String) (n : Neighbour) : Prop :=
  (∀ b ∈ n.before, b < n.key ∧ (∃ w ∈ [relation, category], wordAt ks b = some w) ∧
    ∀ j, j < n.key → wordAt ks j = some constant → j < b) ∧
  ∀ a ∈ n.after, n.key < a ∧ (∃ w ∈ [relation, category], wordAt ks a = some w) ∧
    ∀ j, n.key < j → wordAt ks j = some constant → a < j

-- The clues that the known places next to a constant give.
def neighbour (ks : List String) (k b₂ b₁ f₁ f₂ : Int) : Neighbour where
  key    := k
  before :=
    if wordAt ks b₂ = some relation ∧ wordAt ks b₁ = some prep then some b₂
    else if wordAt ks b₁ = some category then some b₁ else none
  after  :=
    if wordAt ks b₁ = some prep ∧ wordAt ks f₁ = some relation then some f₁
    else if wordAt ks f₁ = some category then some f₁
    else if wordAt ks f₁ = some question ∧ wordAt ks f₂ = some relation then some f₂ else none

theorem isKnown_constant (h : wordAt ks n = some constant) : IsKnown ks n :=
  ⟨_, h, by decide⟩

theorem lt_of_le_constant {w : String} {j : Int} (hw : wordAt ks n = some w) (hc : w ≠ constant)
    (hj : wordAt ks j = some constant) (hle : n ≤ j) : n < j :=
  lt_of_le_of_ne hle fun he => hc (Option.some.inj (hw.symm.trans (he ▸ hj)))

theorem lt_of_constant_le {w : String} {j : Int} (hw : wordAt ks n = some w) (hc : w ≠ constant)
    (hj : wordAt ks j = some constant) (hle : j ≤ n) : j < n :=
  lt_of_le_of_ne hle fun he => hc (Option.some.inj (hw.symm.trans (he ▸ hj)))

theorem near_neighbour (h : Around ks k b₂ b₁ f₁ f₂) : (neighbour ks k b₂ b₁ f₁ f₂).Near ks := by
  have hbefore {w : String} (hw : wordAt ks b₁ = some w) (hc : w ≠ constant) (j : Int) (hj : j < k)
      (hjc : wordAt ks j = some constant) : j < b₁ :=
    lt_of_constant_le hw hc hjc (h.before.last j hj (isKnown_constant hjc))
  have hnext {w : String} (hw : wordAt ks f₁ = some w) (hc : w ≠ constant) (j : Int) (hj : k < j)
      (hjc : wordAt ks j = some constant) : f₁ < j :=
    lt_of_le_constant hw hc hjc (h.next.first j hj (isKnown_constant hjc))
  refine ⟨fun b hb => ?_, fun a ha => ?_⟩
  · simp only [neighbour] at hb ⊢
    split_ifs at hb with h₁ h₂
    · obtain rfl : b₂ = b := by simpa using hb
      refine ⟨h.farther.lt.trans h.before.lt, ⟨relation, by simp, h₁.left⟩, fun j hj hjc => ?_⟩
      have hj := hbefore h₁.right (by decide) j hj hjc
      exact lt_of_constant_le h₁.left (by decide) hjc (h.farther.last j hj (isKnown_constant hjc))
    · obtain rfl : b₁ = b := by simpa using hb
      exact ⟨h.before.lt, ⟨category, by simp, h₂⟩, hbefore h₂ (by decide)⟩
    · simp at hb
  · simp only [neighbour] at ha ⊢
    split_ifs at ha with h₁ h₂ h₃
    · obtain rfl : f₁ = a := by simpa using ha
      exact ⟨h.next.lt, ⟨relation, by simp, h₁.right⟩, hnext h₁.right (by decide)⟩
    · obtain rfl : f₁ = a := by simpa using ha
      exact ⟨h.next.lt, ⟨category, by simp, h₂⟩, hnext h₂ (by decide)⟩
    · obtain rfl : f₂ = a := by simpa using ha
      refine ⟨h.next.lt.trans h.second.lt, ⟨relation, by simp, h₃.right⟩, fun j hj hjc => ?_⟩
      have hj := hnext h₃.left (by decide) j hj hjc
      exact lt_of_le_constant h₃.right (by decide) hjc (h.second.first j hj (isKnown_constant hjc))
    · simp at ha

theorem filter_placeIf (ks : List String) {ns : List Int} (h : b = true → ∃ w, wordAt ks n = some w) :
    (placeIf b n :: ns).filter (· != -1) = (if b then [n] else []) ++ ns.filter (· != -1) := by
  cases b
  case false => simp [placeIf]
  case true  =>
    obtain ⟨w, hw⟩ := h rfl
    have hn : n ≠ -1 := by
      have := (nonneg_of_wordAt hw).left
      omega
    simp [placeIf, hn]

-- The clues of a constant, without the places that mark a pattern that does not fit. As no word is
-- read in two ways, there is one at most on each side.
theorem clues_places (h : context ks k = .ok [b₂, b₁, f₁, f₂]) :
    ∃ cs, clues ks k = .ok cs ∧ cs.filter (· != -1) = (neighbour ks k b₂ b₁ f₁ f₂).places := by
  refine ⟨_, clues_eq h, ?_⟩
  rw [filter_placeIf ks fun h => ⟨relation, by simp_all⟩,
    filter_placeIf ks fun h => ⟨relation, by simp_all⟩,
    filter_placeIf ks fun h => ⟨category, by simp_all⟩,
    filter_placeIf ks fun h => ⟨category, by simp_all⟩,
    filter_placeIf ks fun h => ⟨relation, by simp_all⟩]
  have hpc : prep ≠ category := by decide
  have hrc : relation ≠ category := by decide
  have hrq : relation ≠ question := by decide
  have hcq : category ≠ question := by decide
  simp only [neighbour, Neighbour.places, decide_eq_true_eq, filter_nil]
  grind

theorem exists_neighbour (hk : wordAt ks k = some constant) : ∃ n : Neighbour, n.key = k ∧
    n.Near ks ∧ ∃ cs, clues ks k = .ok cs ∧ cs.filter (· != -1) = n.places := by
  obtain ⟨hz, hl⟩ := nonneg_of_wordAt hk
  obtain ⟨b₂, b₁, f₁, f₂, hc, ha⟩ := exists_context hz hl
  exact ⟨neighbour ks k b₂ b₁ f₁ f₂, rfl, near_neighbour ha,
    clues_places (hc _ (reads_get ks))⟩

end Request
end Inquiry
