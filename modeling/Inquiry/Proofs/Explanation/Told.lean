import Mathlib
import Inquiry.Explanation.Inform
import Inquiry.Proofs.Request.Steering
import Inquiry.Proofs.Term.Congruence

/-!
What an explanation reads off a term: the variables that are counted, and the inclusions. Operations
put together what is told of their arguments, and no inclusion is looked into. Types tell nothing, so
that a part of a tuple tells what the tuple tells.
-/

namespace Inquiry

open List

namespace Explanation

open Term

-- The variables and inclusions of a term, left to right.
def told : Term → List Term
  | .app n op args ty => if op == .inclusion then [.app n op args ty] else toldOfList args
  | t                 => if isCountedVariable t then [t] else []
where
  toldOfList : List Term → List Term
    | []      => []
    | t :: ts => told t ++ toldOfList ts

variable {t u k d c : Term} {ts : List Term} {n : Nat} {op : Op} {ty : Option Term}

theorem toldOfList_eq (ts : List Term) : told.toldOfList ts = ts.flatMap told := by
  induction ts
  case nil          => rfl
  case cons t ts ih => simp [told.toldOfList, ih]

theorem told_app (ho : op ≠ .inclusion) : told (.app n op ts ty) = ts.flatMap told := by
  simp [told, ho, toldOfList_eq]

theorem told_inclusion : told (.app n .inclusion ts ty) = [.app n .inclusion ts ty] := by
  simp [told]

@[simp]
theorem told_nothing : told .nothing = [] := rfl

theorem told_of_op? (h : t.op? = none) : told t = if isCountedVariable t then [t] else [] := by
  cases t <;> simp [op?] at h <;> rfl

theorem isVariable_of_told {x : Term} (h : t.op? = none) (hx : x ∈ told t) : x.isVariable := by
  rw [told_of_op? h] at hx
  split at hx
  case isTrue hv =>
    obtain rfl := mem_singleton.mp hx
    exact (Bool.and_eq_true_iff.mp hv).left
  case isFalse => simp at hx

theorem op?_of_elementKind (h : k.ElementKind d c) : k.op? = none := by
  obtain ⟨_, _, _, rfl, _⟩ := h.shape
  rfl

theorem told_of_typeKind (h : k.TypeKind) : told k = [] := by
  obtain ⟨h, _, _, _, _, rfl, hc⟩ := h
  rw [told_of_op? rfl, if_neg]
  cases hc' : h.cls <;> simp_all [isCountedVariable, isVariable, hasClass, cls?, KindClass.isType]

theorem filter_leaves_of_op? (h : t.op? = none) :
    (leaves (· != .inclusion) t).filter isCountedVariable = (told t).filter isCountedVariable := by
  have hl : leaves (· != .inclusion) t = [t] := by cases t <;> simp [op?] at h <;> simp [leaves]
  rw [hl, told_of_op? h]
  split <;> simp_all

theorem conditionsFrom_of_op? (h : t.op? = none) (cs : List Condition) :
    conditionsFrom t cs = .ok cs := by
  cases t <;> simp [op?] at h <;> rfl

theorem op?_of_isVariable (h : t.isVariable) : t.op? = none := by
  cases t <;> simp [isVariable, hasClass, cls?] at h
  rfl

theorem conditionsFrom_told_of_op? (h : t.op? = none) (cs : List Condition) :
    conditionsFrom t cs = (told t).foldlM (fun cs u => conditionsFrom u cs) cs := by
  rw [told_of_op? h]
  split
  case isTrue  => simp
  case isFalse => exact conditionsFrom_of_op? h cs

mutual

theorem filter_leaves : (t : Term) → (leaves (· != .inclusion) t).filter isCountedVariable
    = (told t).filter isCountedVariable
  | .app n op args ty => by
    by_cases ho : op = .inclusion
    case pos => simp [leaves, told, ho, isCountedVariable, isVariable, hasClass, cls?]
    case neg => simp [leaves, told, ho, filter_leavesOfList args]
  | .kind ..  => filter_leaves_of_op? rfl
  | .gap ..   => filter_leaves_of_op? rfl
  | .number _ => filter_leaves_of_op? rfl
  | .flag _   => filter_leaves_of_op? rfl
  | .nothing  => filter_leaves_of_op? rfl

theorem filter_leavesOfList : (ts : List Term) →
    (leaves.leavesOfList (· != .inclusion) ts).filter isCountedVariable
      = (told.toldOfList ts).filter isCountedVariable
  | []      => rfl
  | t :: ts => by
    simp [leaves.leavesOfList, told.toldOfList, filter_leaves t, filter_leavesOfList ts]

end

mutual

theorem conditionsFrom_told : (t : Term) → (cs : List Condition) →
    conditionsFrom t cs = (told t).foldlM (fun cs u => conditionsFrom u cs) cs
  | .app n op args ty, cs => by
    by_cases ho : op = .inclusion
    case pos => simp [told, ho]
    case neg => simp [told, ho, conditionsFrom, conditionsOfList_told args]
  | .kind .., cs  => conditionsFrom_told_of_op? rfl cs
  | .gap .., cs   => conditionsFrom_told_of_op? rfl cs
  | .number _, cs => conditionsFrom_told_of_op? rfl cs
  | .flag _, cs   => conditionsFrom_told_of_op? rfl cs
  | .nothing, cs  => conditionsFrom_told_of_op? rfl cs

theorem conditionsOfList_told : (ts : List Term) → (cs : List Condition) →
    conditionsFrom.ofList ts cs = (told.toldOfList ts).foldlM (fun cs u => conditionsFrom u cs) cs
  | [], _       => rfl
  | t :: ts, cs => by
    rw [conditionsFrom.ofList, told.toldOfList, foldlM_append, ← conditionsFrom_told t cs]
    exact bind_congr fun cs' => conditionsOfList_told ts cs'

end

-- What is reached from the term tells nothing.
def Tame (t : Term) : Prop :=
  ∀ c, t.cod = .ok c → told c = []

theorem tame_nothing : Tame .nothing :=
  fun _ h => nomatch h

theorem tame_of_elementKind (h : k.ElementKind d c) : Tame k := by
  intro c' hc
  obtain rfl := Except.ok.inj (h.goes.cod.symm.trans hc)
  exact told_of_typeKind h.target

theorem tame_of_ends (h : apply n op ts = .ok t) (hr : op.role = .element)
    (he : ∀ d c, EndsOf op ts d c → told c = []) : Tame t := by
  intro c hc
  obtain ⟨-, _, d, c', hd, rfl⟩ := apply_element hr h
  obtain rfl := Except.ok.inj hc
  exact he d c' hd

theorem tame_composition (h : apply n .composition (t :: ts) = .ok u) (ht : Tame t) : Tame u := by
  refine tame_of_ends h rfl fun d c he => ?_
  cases he
  case composition hh _ _ hc =>
    obtain rfl := Option.some.inj hh
    exact ht c hc

theorem tame_product (h : apply n .product ts = .ok u) (hts : ∀ t ∈ ts, Tame t) : Tame u := by
  refine tame_of_ends h rfl fun d c he => ?_
  cases he
  case product hcs _ hf =>
    obtain ⟨-, rfl⟩ := form_eq_ok.mp hf
    rw [told_app (by simp), flatMap_eq_nil_iff]
    intro c hc
    obtain ⟨t, ht, hc⟩ := exists_of_mem_right (mapM_eq_ok.mp hcs) hc
    exact hts t ht c hc

theorem tame_inverse (h : apply n .inverse [t] = .ok u) (ht : Tame t) : Tame u := by
  refine tame_of_ends h rfl fun d c he => ?_
  cases he
  case inverse hc => exact ht c hc

theorem tame_projection (h : apply n .projection ts = .ok u) (hts : ∀ t ∈ ts, told t = []) :
    Tame u := by
  refine tame_of_ends h rfl fun d c he => ?_
  cases he
  case projection hc => exact hts c (mem_of_getElem? hc)

theorem tame_inclusion (h : apply n .inclusion (t :: ts) = .ok u)
    (ht : ∀ d, t.dom = .ok d → told d = []) : Tame u := by
  refine tame_of_ends h rfl fun d c he => ?_
  cases he
  case inclusion hc => exact ht c hc

theorem told_dom_composed (h : Applied .composition ts t) (hts : ∀ k ∈ ts, ∃ d c, k.ElementKind d c)
    (hd : t.dom = .ok d) : told d = [] := by
  have hk : ∀ k ∈ ts, k.dom = .ok d → told d = [] := by
    intro k hk hd
    obtain ⟨_, _, hk⟩ := hts k hk
    obtain rfl := Except.ok.inj (hk.goes.dom.symm.trans hd)
    exact told_of_typeKind hk.source
  rcases ts with _ | ⟨k, _ | ⟨_, _⟩⟩
  case nil =>
    obtain rfl : t = .nothing := h
    cases hd
  case cons.nil => exact hk k (by simp) ((show t = k from h) ▸ hd)
  case cons.cons =>
    obtain ⟨n, h⟩ := h
    obtain ⟨-, _, d', c, he, rfl⟩ := apply_element rfl h
    obtain rfl := Except.ok.inj hd
    cases he
    case composition hl hd _ => exact hk _ (mem_of_mem_getLast? hl) hd

theorem told_applied (ho : op ≠ .inclusion) (h : Applied op ts t) : told t = ts.flatMap told := by
  rcases ts with _ | ⟨_, _ | ⟨_, _⟩⟩
  case nil      => simp [show t = .nothing from h]
  case cons.nil => simp [show t = _ from h]
  case cons.cons =>
    obtain ⟨n, h⟩ := h
    obtain ⟨-, ty, -, rfl⟩ := apply_eq_ok.mp h
    exact told_app ho

theorem tame_composed (h : Applied .composition (t :: ts) u) (ht : Tame t) : Tame u := by
  cases ts
  case nil => exact (show u = t from h) ▸ ht
  case cons =>
    obtain ⟨n, h⟩ := h
    exact tame_composition h ht

theorem tame_paired (h : Applied .product ts u) (hts : ∀ t ∈ ts, Tame t) : Tame u := by
  rcases ts with _ | ⟨_, _ | ⟨_, _⟩⟩
  case nil      => exact (show u = .nothing from h) ▸ tame_nothing
  case cons.nil => exact (show u = _ from h) ▸ hts _ (by simp)
  case cons.cons =>
    obtain ⟨n, h⟩ := h
    exact tame_product h hts

theorem flatten_filter_nonempty (ps : List Path) :
    ((ps.filter (!·.isEmpty)).map (·.flatMap told)).flatten = ps.flatMap (·.flatMap told) := by
  induction ps
  case nil          => rfl
  case cons p ps ih => cases p <;> simp_all

section Building

open SessionM Request

variable {I : Session → Prop} (hI : ∀ s, I s → I s.numbered)
include hI

theorem keeps_told_compose (t u : Term) :
    Keeps I (compose [t, u]) fun v => told v = told t ++ told u :=
  (keeps_joined hI .composition [t, u]).imp fun v hv => by simpa using told_applied (by simp) hv

theorem keeps_composed (t u : Term) (ht : Tame t) :
    Keeps I (compose [t, u]) fun v => told v = told t ++ told u ∧ Tame v := by
  refine (keeps_joined hI .composition [t, u]).imp fun v hv => ⟨?_, tame_composed hv ht⟩
  simpa using told_applied (by simp) hv

theorem keeps_told_pair (ts : List Term) : Keeps I (pair ts) fun t => told t = ts.flatMap told :=
  (keeps_joined hI .product ts).imp fun _ ht => told_applied (by simp) ht

theorem keeps_paired (hts : ∀ t ∈ ts, Tame t) :
    Keeps I (pair ts) fun t => told t = ts.flatMap told ∧ Tame t :=
  (keeps_joined hI .product ts).imp fun _ ht => ⟨told_applied (by simp) ht, tame_paired ht hts⟩

theorem keeps_inverted (ht : Tame t) : Keeps I (invert [t]) fun u => told u = told t ∧ Tame u := by
  refine (keeps_app hI .inverse [t]).imp ?_
  rintro u ⟨n, hu⟩
  refine ⟨?_, tame_inverse hu ht⟩
  obtain ⟨-, ty, -, rfl⟩ := apply_eq_ok.mp hu
  simp [told_app]

theorem keeps_projected (hts : ∀ t ∈ ts, told t = []) :
    Keeps I (projection ts) fun u => told u = [] ∧ Tame u := by
  refine .ite (fun _ => keeps_pure ⟨told_nothing, tame_nothing⟩) fun _ => ?_
  refine (keeps_app hI .projection ts).imp ?_
  rintro u ⟨n, hu⟩
  refine ⟨?_, tame_projection hu hts⟩
  obtain ⟨-, ty, -, rfl⟩ := apply_eq_ok.mp hu
  simpa [told_app] using hts

theorem keeps_part {i : Int} (ht : Tame t) :
    Keeps I (part t i) fun u => told u = told t ∧ Tame u := by
  refine (keeps_outcome (P := fun c => told c = []) ht).bind fun c hc => ?_
  split
  case h_1 parts _ =>
    rw [told_app (by simp), flatMap_eq_nil_iff] at hc
    have hp : ∀ t ∈ parts ++ [.number i], told t = [] :=
      forall_mem_append.mpr ⟨hc, by simp [told, isCountedVariable, isVariable, hasClass, cls?]⟩
    refine (keeps_projected hI hp).bind ?_
    rintro p ⟨hp, hpt⟩
    exact (keeps_composed hI p t hpt).imp fun u hu => ⟨by simpa [hp] using hu.left, hu.right⟩
  case h_2 => exact keeps_pure ⟨rfl, ht⟩

theorem keeps_parts {ps : List Path} {i : Nat} (ht : Tame t) : Keeps I (partsFrom t ps i) fun zs? =>
    ∀ zs, zs? = some zs → zs.length = ps.length ∧ ∀ z ∈ zs, told z = told t ∧ Tame z := by
  induction ps generalizing i
  case nil => exact keeps_pure (by simp)
  case cons p ps ih =>
    rw [partsFrom]
    refine Keeps.bind (P := fun z? => ∀ z, z? = some z → told z = told t ∧ Tame z) ?_
      fun z? hz => ?_
    · refine .tryCatch ((keeps_part hI ht).map fun z hz => by simpa using hz) fun e => ?_
      split
      case h_1 => exact keeps_pure (by simp)
      case h_2 => exact keeps_throw
    · cases z?
      case none   => exact keeps_pure (by simp)
      case some z =>
        refine ih.bind fun zs? hzs => keeps_pure ?_
        cases zs? <;> simp_all

theorem keeps_selected {ps : List Path} (hps : ∀ p ∈ ps, ∀ t ∈ p, Tame t) :
    Keeps I (selected ps) fun t => told t = ps.flatMap (·.flatMap told) ∧ Tame t := by
  have hc : Keeps I ((ps.filter (!·.isEmpty)).mapM compose) (Forall₂ (fun p t =>
      told t = p.flatMap told ∧ Tame t) (ps.filter (!·.isEmpty))) := by
    refine keeps_mapM_forall₂ fun p hp => ?_
    refine (keeps_joined hI .composition p).imp fun t ht => ⟨told_applied (by simp) ht, ?_⟩
    replace hp := mem_filter.mp hp
    cases p
    case nil       => simp at hp
    case cons x xs => exact tame_composed ht (hps _ hp.left x (by simp))
  refine hc.bind fun ts hts => ?_
  have htame : ∀ t ∈ ts, Tame t := by
    intro t ht
    obtain ⟨_, _, _, h⟩ := exists_of_mem_right hts ht
    exact h
  refine (keeps_paired hI htame).imp fun t ht => ⟨?_, ht.right⟩
  calc told t = (ts.map told).flatten := by rw [ht.left, flatMap_def]
    _ = ((ps.filter (!·.isEmpty)).map (·.flatMap told)).flatten := by
      rw [map_eq_map_of_forall₂ hts fun _ _ h => h.left.symm]
    _ = ps.flatMap (·.flatMap told) := flatten_filter_nonempty ps

end Building

end Explanation
end Inquiry
