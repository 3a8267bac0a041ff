import Mathlib
import Inquiry.Proofs.Explanation.Asked
import Inquiry.Proofs.Sql.ListComposition

/-!
The conditions of a selection. A selection takes paths to variables and constants in turn. Each path
with the constant after it is one condition, and no two of them are alike.
-/

namespace Inquiry

open List

def Path.shown : Path → String
  | [k] => k.printed
  | ks  => Op.composition.enclose (ks.map Term.printed)

namespace Explanation

section Apart

open Classical

variable {text : α → Except Failure β} {alike : α → α → Except Failure Bool} {P : α → Prop}

-- Things that have a text, of which no two are alike.
structure Apart (text : α → Except Failure β) (alike : α → α → Except Failure Bool)
    (P : α → Prop) : Prop where
  text  : ∀ x, P x → ∃ a, text x = .ok a
  alike : ∀ x y, P x → P y → alike x y = .ok (decide (x = y))

variable [BEq β] [LawfulBEq β] {x : α} {xs ys : List α} (h : Apart text alike P)
include h

theorem Apart.addNew_eq (hx : P x) (hxs : ∀ y ∈ xs, P y) :
    addNew text alike xs x = .ok (if x ∈ xs then xs else xs ++ [x]) := by
  obtain ⟨a, ha⟩ := h.text x hx
  have hy : ∀ y ∈ xs, (do if (← text y) == a then alike y x else return false)
      = Except.ok (decide (y = x)) := by
    intro y hy
    obtain ⟨b, hb⟩ := h.text y (hxs y hy)
    rw [hb, ok_bind]
    split
    case isTrue => exact h.alike y x (hxs y hy) hx
    case isFalse he =>
      have hne : y ≠ x := by
        rintro rfl
        simp [Except.ok.inj (ha.symm.trans hb)] at he
      simp [hne]
  have hany : xs.any (fun y => decide (y = x)) = true ↔ x ∈ xs := by
    simp only [any_eq_true, decide_eq_true_iff, exists_eq_right]
  rw [addNew, ha, ok_bind, anyM_eq_ok (forall₂_same.mpr hy), ok_bind]
  simp only [hany]
  rfl

theorem Apart.foldlM_of_subset (hxs : ∀ y ∈ xs, P y) (hs : ys ⊆ xs) :
    ys.foldlM (addNew text alike) xs = .ok xs := by
  induction ys
  case nil => rfl
  case cons y ys ih =>
    obtain ⟨hy, hs⟩ := cons_subset.mp hs
    rw [foldlM_cons, h.addNew_eq (hxs y hy) hxs, if_pos hy, ok_bind, ih hs]

theorem Apart.foldlM_of_nodup (hp : ∀ y ∈ xs ++ ys, P y) (hn : (xs ++ ys).Nodup) :
    ys.foldlM (addNew text alike) xs = .ok (xs ++ ys) := by
  induction ys generalizing xs
  case nil => simp
  case cons y ys ih =>
    have hy : y ∉ xs := fun hy => (nodup_append.mp hn).right.right y hy y (by simp) rfl
    have he : xs ++ y :: ys = xs ++ [y] ++ ys := by simp
    rw [foldlM_cons, h.addNew_eq (hp y (by simp)) fun z hz => hp z (by simp [hz]), if_neg hy,
      ok_bind, he, ih (he ▸ hp) (he ▸ hn)]

theorem Apart.foldlM_members (hp : ∀ y ∈ xs ++ ys, P y) (hn : xs.Nodup) :
    ∃ zs, ys.foldlM (addNew text alike) xs = .ok zs ∧ zs.Nodup ∧ ∀ z, z ∈ zs ↔ z ∈ xs ++ ys := by
  induction ys generalizing xs
  case nil => exact ⟨xs, rfl, hn, by simp⟩
  case cons y ys ih =>
    have he : xs ++ y :: ys = xs ++ [y] ++ ys := by simp
    rw [foldlM_cons, h.addNew_eq (hp y (by simp)) fun z hz => hp z (by simp [hz]), ok_bind]
    split
    case isTrue hy =>
      obtain ⟨zs, hzs, hn, hm⟩ := ih (fun z hz => hp z (by simp at hz ⊢; tauto)) hn
      refine ⟨zs, hzs, hn, fun z => (hm z).trans ?_⟩
      simp only [mem_append, mem_cons]
      constructor
      · tauto
      · rintro (hz | rfl | hz) <;> tauto
    case isFalse hy =>
      rw [he] at hp ⊢
      refine ih hp (nodup_append.mpr ⟨hn, by simp, ?_⟩)
      rintro a ha b hb rfl
      exact hy (mem_singleton.mp hb ▸ ha)

theorem Apart.distinct_members (hp : ∀ y ∈ ys, P y) :
    ∃ zs, distinct text alike ys = .ok zs ∧ zs.Nodup ∧ ∀ z, z ∈ zs ↔ z ∈ ys :=
  h.foldlM_members hp .nil

end Apart

open Term Session SessionM

def pairUp : List Term → List (Term × Term)
  | t :: u :: ts => (t, u) :: pairUp ts
  | _            => []

def pairs : Term → List (Term × Term)
  | .app _ .inclusion args _ => pairUp args
  | _                        => []

def flat (xs : List (Term × Term)) : List Term :=
  xs.flatMap fun x => [x.1, x.2]

-- A pair of a path to a variable and a constant states a condition.
structure States (s : Session) (x : Term × Term) (c : Condition) : Prop where
  path  : Applied .composition (c.var :: c.rels) x.1
  value : ∃ a, Applied .composition [c.const, a] x.2
  var   : s.HasVariable c.var
  rels  : ∀ k ∈ c.rels, s.HasRelation k
  const : c.const.isConstant

variable {s : Session} {t u : Term} {x y : Term × Term} {xs : List (Term × Term)} {c d : Condition}

theorem pairUp_flat (xs : List (Term × Term)) : pairUp (flat xs) = xs := by
  induction xs
  case nil          => rfl
  case cons x xs ih => simpa [flat, pairUp] using ih

theorem mem_flat : t ∈ flat xs ↔ ∃ x ∈ xs, t = x.1 ∨ t = x.2 := by
  simp [flat]

theorem insertPair_flat (t u : Term) (xs : List (Term × Term)) :
    ∃ ys, insertPair t u (flat xs) = flat ys ∧ ys.Perm ((t, u) :: xs) := by
  induction xs
  case nil => exact ⟨[(t, u)], rfl, .refl _⟩
  case cons x xs ih =>
    obtain ⟨ys, hy, hp⟩ := ih
    have hx : flat (x :: xs) = x.1 :: x.2 :: flat xs := rfl
    rw [hx, insertPair]
    split
    case isTrue  => exact ⟨x :: ys, by rw [hy]; rfl, (hp.cons x).trans (.swap ..)⟩
    case isFalse => exact ⟨(t, u) :: x :: xs, rfl, .refl _⟩

theorem addCondition_eq {args args' : List Term} (h : addCondition args t u = .ok args')
    (hn : ∀ x ∈ args, (x == t) = false) :
    args' = insertPair t u args ∧ ∀ x ∈ args, x.printed ≠ t.printed := by
  rw [addCondition] at h
  split at h
  case isTrue =>
    rw [findIdx?_eq_none_iff.mpr hn] at h
    cases h
  case isFalse hp =>
    refine ⟨(Except.ok.inj h).symm, fun x hx he => hp ?_⟩
    exact any_eq_true.mpr ⟨x, hx, by simp [he]⟩

theorem printed_of_applied {p : Path} (h : Applied .composition p t) (hn : p ≠ []) :
    t.printed = p.shown := by
  rcases p with _ | ⟨_, _ | ⟨_, _⟩⟩
  case nil       => exact absurd rfl hn
  case cons.nil  => exact congrArg printed h
  case cons.cons =>
    obtain ⟨_, _, rfl⟩ := h.joins
    rw [printed, printedList_eq_map]
    rfl

theorem States.printed_eq (h : States s x c) : x.1.printed = Path.shown (c.var :: c.rels) :=
  printed_of_applied h.path (by simp)

theorem States.told_eq (h : States s x c) : told x.1 = [c.var] := by
  rw [told_applied (by simp) h.path, flatMap_cons, h.var.told_eq, flatMap_told_relations h.rels]
  rfl

theorem focused_of_op? {n : Nat} (h : t.op? = none) : focused n t = .ok [t] := by
  cases t <;> simp [op?] at h <;> rfl

theorem focused_ofList {n : Nat} {ts : List Term} (h : ∀ t ∈ ts, t.op? = none) :
    focused.ofList n ts = .ok ts := by
  induction ts
  case nil => rfl
  case cons t ts ih =>
    obtain ⟨ht, hts⟩ := forall_mem_cons.mp h
    simp [focused.ofList, focused_of_op? ht, ih hts]

theorem States.focused_eq (h : States s x c) : focused 0 x.1 = .ok (c.var :: c.rels) := by
  have hk : ∀ k ∈ c.var :: c.rels, k.op? = none :=
    forall_mem_cons.mpr ⟨h.var.op?_eq, fun k hk => (h.rels k hk).op?_eq⟩
  have hp := h.path
  cases hr : c.rels
  case nil =>
    rw [hr] at hp
    rw [show x.1 = c.var from hp, focused_of_op? h.var.op?_eq]
  case cons =>
    rw [hr] at hp hk
    obtain ⟨_, _, hx⟩ := hp.joins
    simp [hx, focused, h.var.not_isQuotient, focused_ofList hk]

theorem States.relations_eq (h : States s x c) : relations x.1 = .ok c.rels := by
  have hr : c.rels.filter isRelation = c.rels := filter_eq_self.mpr fun k hk => (h.rels k hk).cls
  simp [relations, h.focused_eq, h.var.not_isRelation, hr]

theorem leaves_of_op? {wanted : Op → Bool} (h : t.op? = none) : leaves wanted t = [t] := by
  cases t <;> simp [op?] at h <;> rfl

theorem op?_of_isConstant (h : t.isConstant) : t.op? = none := by
  cases t <;> simp [isConstant, hasClass, cls?] at h
  rfl

theorem conditionOf_eq (h : States s x c) : conditionOf x.1 x.2 = .ok c := by
  obtain ⟨a, _, hv⟩ := h.value
  obtain ⟨-, _, -, hv⟩ := apply_eq_ok.mp hv
  have hvar : (leaves (· != .inclusion) x.1).filter isCountedVariable = [c.var] := by
    simp [filter_leaves, h.told_eq, h.var.counted]
  have hconst : (leaves (fun _ => true) x.2).filter isConstant
      = c.const :: (leaves (fun _ => true) a).filter isConstant := by
    simp [hv, leaves, leaves.leavesOfList, leaves_of_op? (op?_of_isConstant h.const), h.const]
  simp [conditionOf, hvar, hconst, h.relations_eq, anyOf]

theorem name_of_isConstant (h : t.isConstant) : t.name = .ok t.printed := by
  cases t <;> simp [isConstant, hasClass, cls?] at h
  rfl

theorem domainName_of_elementKind {k d c : Term} (h : k.ElementKind d c) :
    domainName k = .ok d.printed := by
  rw [domainName, h.domain_eq, ok_bind]
  obtain ⟨_, _, _, _, _, rfl, _⟩ := h.source
  rfl

theorem exists_ownersText {ks : List Term} (h : ∀ k ∈ ks, s.HasElement k) :
    ∃ a, ownersText ks = .ok a := by
  have hm : ∃ as, ks.mapM (fun r => return " van een " ++ (← domainName r)) = Except.ok as := by
    induction ks
    case nil => exact ⟨[], rfl⟩
    case cons k ks ih =>
      obtain ⟨hk, hks⟩ := forall_mem_cons.mp h
      obtain ⟨as, has⟩ := ih hks
      obtain ⟨_, _, hk⟩ := hk.ends
      exact ⟨_, by rw [mapM_cons, has, domainName_of_elementKind hk]; rfl⟩
  obtain ⟨as, has⟩ := hm
  exact ⟨_, by rw [ownersText, has]; rfl⟩

theorem States.exists_text (h : States s x c) : ∃ a, c.text = .ok a := by
  obtain ⟨a, ha⟩ := exists_ownersText fun k hk => (h.rels k hk).toHasElement
  obtain ⟨d, _, hv⟩ := h.var.ends
  have hn := h.var.name_eq
  have hc := name_of_isConstant h.const
  refine ⟨c.var.printed ++ " van een " ++ d.printed ++ a ++ " = " ++ c.const.printed, ?_⟩
  simp [Condition.text, variableText, ha, hn, hc, domainName_of_elementKind hv]

theorem sameName_eq {a b : String} (ht : t.name = .ok a) (hu : u.name = .ok b) :
    sameName t u = .ok (a == b) := by
  simp [sameName, ht, hu]

theorem States.alike_self (h : States s x c) : c.alike c = .ok true := by
  have hv := sameName_eq h.var.name_eq h.var.name_eq
  have hn := name_of_isConstant h.const
  simp [Condition.alike, hv, bne, sameName_eq hn hn]

theorem States.not_alike (hs : s.Faithful) (h : States s x c) (h' : States s y d)
    (hn : x.1.printed ≠ y.1.printed) : c.alike d = .ok false := by
  have hc := name_of_isConstant h.const
  have hd := name_of_isConstant h'.const
  have hv := sameName_eq h.var.name_eq h'.var.name_eq
  by_cases hp : c.var.printed = d.var.printed
  case neg => simp [Condition.alike, hv, hp]
  case pos =>
    have hr : (c.rels != d.rels) = true := by
      rw [bne, Bool.not_eq_true', ← Bool.not_eq_true]
      intro he
      have he := hs.eq_of_beq_elements (fun k hk => (h.rels k hk).toHasElement)
        (fun k hk => (h'.rels k hk).toHasElement) he
      have hv := h.var.eq_of_printed h'.var.toHasElement hp
      exact hn (by rw [h.printed_eq, h'.printed_eq, hv, he])
    simp [Condition.alike, hv, hp, hr]

variable {cs : List Condition}

-- Pairs with the conditions that they state, of which no two are on the same path.
structure StatesAll (s : Session) (xs : List (Term × Term)) (cs : List Condition) : Prop where
  states : Forall₂ (States s) xs cs
  paths  : (xs.map (·.1.printed)).Nodup

theorem conditionsOfPairs_flat (h : Forall₂ (States s) xs cs) (acc : List Condition) :
    conditionsOfPairs (flat xs) acc = cs.foldlM (addNew Condition.text Condition.alike) acc := by
  induction h generalizing acc
  case nil => rfl
  case cons x c xs cs hx _ ih =>
    have he : flat (x :: xs) = x.1 :: x.2 :: flat xs := rfl
    rw [he, conditionsOfPairs, conditionOf_eq hx, ok_bind, foldlM_cons]
    exact bind_congr fun acc' => ih acc'

theorem StatesAll.nodup_shown (h : StatesAll s xs cs) :
    (cs.map fun c => Path.shown (c.var :: c.rels)).Nodup := by
  rw [← map_eq_map_of_forall₂ h.states fun _ _ hx => hx.printed_eq]
  exact h.paths

theorem StatesAll.apart (hs : s.Faithful) (h : StatesAll s xs cs) :
    Apart Condition.text Condition.alike (· ∈ cs) where
  text c hc := by
    obtain ⟨x, _, hx⟩ := exists_of_mem_right h.states hc
    exact hx.exists_text
  alike c d hc hd := by
    obtain ⟨x, _, hx⟩ := exists_of_mem_right h.states hc
    obtain ⟨y, _, hy⟩ := exists_of_mem_right h.states hd
    by_cases he : c = d
    case pos =>
      subst he
      simpa using hx.alike_self
    case neg =>
      have hn : x.1.printed ≠ y.1.printed := by
        rw [hx.printed_eq, hy.printed_eq]
        exact fun hn => he (inj_on_of_nodup_map h.nodup_shown hc hd hn)
      simpa [he] using hx.not_alike hs hy hn

theorem StatesAll.conditionsOfPairs_nil (hs : s.Faithful) (h : StatesAll s xs cs) :
    conditionsOfPairs (flat xs) [] = .ok cs := by
  have hn : ([] ++ cs).Nodup := h.nodup_shown.of_map
  rw [conditionsOfPairs_flat h.states, (h.apart hs).foldlM_of_nodup (by simp) hn]
  rfl

theorem StatesAll.conditionsOfPairs_again (hs : s.Faithful) (h : StatesAll s xs cs) :
    conditionsOfPairs (flat xs) cs = .ok cs := by
  rw [conditionsOfPairs_flat h.states, (h.apart hs).foldlM_of_subset (by simp) (List.Subset.refl _)]

section Selection

variable {s₀ s' : Session} {ms : List Meaning} {es done : Assoc Int Path} {pivot selection : Term}
variable {args : List Term} {p : Path}

-- Paths over relations to variables, none of them printing like another, with constants for their
-- values.
structure ConditionPaths (s : Session) (ms : List Meaning) (es : Assoc Int Path) : Prop where
  paths     : ∀ e ∈ es, ∃ v rels, e.2 = v :: rels ∧ s.HasVariable v ∧ ∀ k ∈ rels, s.HasRelation k
  constants : ∀ e ∈ es, ∀ m, Sequence.get ms e.1 = .ok m → m.asTerm.isConstant
  apart     : (es.map (·.2.shown)).Nodup

-- The term has been made since `s₀`, or is one of the paths by itself.
def MadeSince (s₀ s : Session) (done : Assoc Int Path) (t : Term) : Prop :=
  (∃ n, t.serial? = some n ∧ s₀.next ≤ n ∧ n < s.next) ∨ ∃ e ∈ done, e.2 = [t]

-- The arguments of a selection, when some of the paths have been gone through.
structure Gathered (s₀ : Session) (done : Assoc Int Path) (s : Session) (args : List Term) :
    Prop where
  onward : s₀.Onward s
  pairs  : ∃ xs, args = flat xs ∧ (∀ x ∈ xs, ∃ c, States s₀ x c) ∧ (xs.map (·.1.printed)).Nodup
  fresh  : ∀ t ∈ args, MadeSince s₀ s done t

theorem compose_gives (hn : p ≠ []) (h : (compose p).Gives s t s') : Applied .composition p t ∧
    (p = [t] ∧ s' = s ∨ t.serial? = some s.next ∧ s' = s.numbered) := by
  rcases p with _ | ⟨k, _ | ⟨_, _⟩⟩
  case nil => exact absurd rfl hn
  case cons.nil =>
    obtain ⟨rfl, rfl⟩ := gives_pure.mp h
    exact ⟨rfl, .inl ⟨rfl, rfl⟩⟩
  case cons.cons =>
    obtain ⟨h, hs⟩ := gives_app_iff.mp h
    refine ⟨⟨s.next, h⟩, .inr ⟨?_, hs⟩⟩
    obtain ⟨-, _, -, rfl⟩ := apply_eq_ok.mp h
    rfl

theorem not_beq_of_serial {m n : Nat} (ht : t.serial? = some m) (hu : u.serial? = some n)
    (hn : m ≠ n) : (t == u) = false := by
  change t.same u = false
  simp [same, ht, hu, hn]

theorem ConditionPaths.whole (h : ConditionPaths s ms es) {e : Int × Path} (he : e ∈ es)
    (ht : e.2 = [t]) : s.HasVariable t := by
  obtain ⟨v, rels, hp, hv, _⟩ := h.paths e he
  obtain ⟨rfl, _⟩ := List.cons.inj (ht.symm.trans hp)
  exact hv

theorem Gathered.not_among (h : Gathered s₀ done s args) (hs : s₀.Faithful)
    (hes : ConditionPaths s₀ ms es) {e : Int × Path} {rest : Assoc Int Path}
    (he : es = done ++ e :: rest) (ht : e.2 = [t] ∨ t.serial? = some s.next) :
    ∀ x ∈ args, (x == t) = false := by
  intro x hx
  have hdone : ∀ e' ∈ done, e' ∈ es := fun e' h => by simp [he, h]
  have hnext := h.onward.next
  cases h.fresh x hx
  case inl hn =>
    obtain ⟨n, hn, hle, hlt⟩ := hn
    cases ht
    case inl ht =>
      obtain ⟨m, hm, hmt⟩ := hs.serial _ t (hes.whole (by simp [he]) ht).known
      exact not_beq_of_serial hn hmt (by omega)
    case inr ht => exact not_beq_of_serial hn ht hlt.ne
  case inr hw =>
    obtain ⟨e', he', hw⟩ := hw
    have hxv := hes.whole (hdone e' he') hw
    cases ht
    case inl ht =>
      rw [← Bool.not_eq_true]
      intro hbeq
      have htv := hes.whole (by simp [he]) ht
      obtain rfl := hs.eq_of_beq ⟨_, hxv.known⟩ ⟨_, htv.known⟩ hbeq
      have hn := hes.apart
      rw [he, map_append, nodup_append] at hn
      exact hn.right.right _ (mem_map_of_mem he') e.2.shown (by simp) (by rw [hw, ht])
    case inr ht =>
      obtain ⟨m, hm, hmx⟩ := hs.serial _ x hxv.known
      exact not_beq_of_serial hmx ht (by omega)

theorem numbered_next (s : Session) : s.next < s.numbered.next := by
  simp [Session.numbered, Op.serials]

theorem Gathered.later (h : Gathered s₀ done s args) (hs' : s₀.Onward s') (hn : s.next ≤ s'.next)
    (e : Int × Path) : Gathered s₀ (done ++ [e]) s' args where
  onward := hs'
  pairs  := h.pairs
  fresh t ht := by
    refine (h.fresh t ht).imp ?_ ?_
    · rintro ⟨n, ht, hle, hlt⟩
      exact ⟨n, ht, hle, hlt.trans_le hn⟩
    · rintro ⟨e, he, ht⟩
      exact ⟨e, by simp [he], ht⟩

theorem Gathered.insert (h : Gathered s₀ done s args) (hc : States s₀ (t, u) c)
    (hn : ∀ x ∈ args, x.printed ≠ t.printed)
    (ht : MadeSince s₀ s done t) (hu : MadeSince s₀ s done u) :
    Gathered s₀ done s (insertPair t u args) := by
  obtain ⟨xs, rfl, hst, hnd⟩ := h.pairs
  obtain ⟨ys, hys, hperm⟩ := insertPair_flat t u xs
  refine ⟨h.onward, ⟨ys, hys, fun x hx => ?_, ?_⟩, fun x hx => ?_⟩
  · cases mem_cons.mp (hperm.mem_iff.mp hx)
    case inl hx => exact ⟨c, hx ▸ hc⟩
    case inr hx => exact hst x hx
  · rw [(hperm.map _).nodup_iff, map_cons, nodup_cons]
    refine ⟨fun hm => ?_, hnd⟩
    obtain ⟨x, hx, he⟩ := mem_map.mp hm
    exact hn x.1 (mem_flat.mpr ⟨x, hx, .inl rfl⟩) he
  · obtain ⟨y, hy, hx⟩ := mem_flat.mp (hys ▸ hx)
    cases mem_cons.mp (hperm.mem_iff.mp hy)
    case inl hy =>
      subst hy
      exact hx.elim (· ▸ ht) (· ▸ hu)
    case inr hy => exact h.fresh x (mem_flat.mpr ⟨y, hy, hx⟩)

theorem Gathered.add (h : Gathered s₀ done s args) (hs : s₀.Faithful)
    (hes : ConditionPaths s₀ ms es) (hp : s₀.HasObjectType pivot) {e : Int × Path}
    {rest : Assoc Int Path} (he : es = done ++ e :: rest) {const w : Term} (hc : const.isConstant)
    {s₁ s₂ s₃ : Session} {args' : List Term} (ht : (compose e.2).Gives s t s₁)
    (hw : (together pivot).Gives s₁ w s₂) (hu : (compose [const, w]).Gives s₂ u s₃)
    (ha : addCondition args t u = .ok args') : Gathered s₀ (done ++ [e]) s₃ args' := by
  obtain ⟨v, rels, hv, hvar, hrels⟩ := hes.paths e (by simp [he])
  obtain ⟨htp, hts⟩ := compose_gives (by simp [hv]) ht
  obtain ⟨hup, hus⟩ := compose_gives (by simp) hu
  replace hus : u.serial? = some s₂.next ∧ s₃ = s₂.numbered := by simpa using hus
  obtain ⟨hun, rfl⟩ := hus
  obtain ⟨rfl, hne⟩ := addCondition_eq ha (h.not_among hs hes he (hts.imp And.left And.left))
  have hs₁ : s₀.Onward s₁ ∧ s.next ≤ s₁.next := by
    obtain ⟨_, rfl⟩ | ⟨_, rfl⟩ := hts
    · exact ⟨h.onward, le_rfl⟩
    · exact ⟨onward_numbered s₀ s h.onward, (numbered_next s).le⟩
  have hs₂ : s₀.Onward s₂ := (Onward.keeps_together hp).gives hs₁.left hw
  have hn₂ : s₁.next ≤ s₂.next :=
    ((Onward.keeps_together (hp.later hs₁.left.later)).gives hs₁.left.faithful.onward hw).next
  have hn₃ := numbered_next s₂
  have hnext := h.onward.next
  refine (h.later (onward_numbered s₀ s₂ hs₂) (by omega) e).insert (c := ⟨v, rels, const⟩) ?_ hne
    ?_ (.inl ⟨s₂.next, hun, by omega, hn₃⟩)
  · exact ⟨hv ▸ htp, ⟨w, hup⟩, hvar, hrels, hc⟩
  · obtain ⟨hte, _⟩ | ⟨htn, rfl⟩ := hts
    · exact .inr ⟨e, by simp, hte⟩
    · have hn := numbered_next s
      exact .inl ⟨s.next, htn, hnext, by omega⟩

theorem exists_statesAll (h : ∀ x ∈ xs, ∃ c, States s x c) (hn : (xs.map (·.1.printed)).Nodup) :
    ∃ cs, StatesAll s xs cs := by
  suffices hf : ∃ cs, Forall₂ (States s) xs cs from hf.imp fun cs hcs => ⟨hcs, hn⟩
  clear hn
  induction xs
  case nil => exact ⟨[], .nil⟩
  case cons x xs ih =>
    obtain ⟨⟨c, hc⟩, hxs⟩ := forall_mem_cons.mp h
    obtain ⟨cs, hcs⟩ := ih hxs
    exact ⟨c :: cs, .cons hc hcs⟩

-- A selection that is made from paths has one pair for each condition.
structure Selects (s₀ : Session) (selection : Term) (cs : List Condition) : Prop where
  states : StatesAll s₀ (pairs selection) cs
  made   : selection = .nothing ∨ pairs selection ≠ [] ∧
    ∃ n, Term.apply n .inclusion (flat (pairs selection)) = .ok selection

theorem selectionOf_selects (hs : s₀.Faithful) (hes : ConditionPaths s₀ ms es)
    (hp : s₀.HasObjectType pivot) (h : (selectionOf es ms pivot).Gives s₀ selection s') :
    s₀.Onward s' ∧ ∃ cs, Selects s₀ selection cs := by
  obtain ⟨args, s₁, hfold, hr⟩ := gives_bind.mp h
  have hg : Gathered s₀ es s₁ args := by
    refine hfold.foldlM (J := Gathered s₀) ⟨hs.onward, ⟨[], rfl, by simp, by simp⟩, by simp⟩ ?_
    rintro done ⟨k, p⟩ rest s args args' s' he hg hstep
    obtain ⟨first, _, hstep⟩ := gives_ofExcept_bind_iff.mp hstep
    obtain ⟨source, _, hstep⟩ := gives_ofExcept_bind_iff.mp hstep
    split at hstep
    case isFalse =>
      obtain ⟨rfl, rfl⟩ := gives_pure.mp hstep
      exact hg.later hg.onward le_rfl _
    case isTrue =>
      obtain ⟨const, hconst, hstep⟩ := gives_ofExcept_bind_iff.mp hstep
      obtain ⟨t, s₁, ht, hstep⟩ := gives_bind.mp hstep
      obtain ⟨w, s₂, hw, hstep⟩ := gives_bind.mp hstep
      obtain ⟨u, s₃, hu, hstep⟩ := gives_bind.mp hstep
      obtain ⟨ha, rfl⟩ := gives_ofExcept.mp hstep
      exact hg.add hs hes hp he (hes.constants (k, p) (by simp [he]) const hconst) ht hw hu ha
  obtain ⟨xs, rfl, hst, hnd⟩ := hg.pairs
  obtain ⟨cs, hcs⟩ := exists_statesAll hst hnd
  cases xs
  case nil =>
    obtain ⟨rfl, rfl⟩ := gives_pure.mp hr
    exact ⟨hg.onward, cs, hcs, .inl rfl⟩
  case cons x xs =>
    obtain ⟨happly, rfl⟩ := gives_app_iff.mp hr
    have hpairs : pairs selection = x :: xs := by
      obtain ⟨-, _, -, rfl⟩ := apply_eq_ok.mp happly
      exact pairUp_flat _
    refine ⟨onward_numbered s₀ s₁ hg.onward, cs, hpairs ▸ hcs, .inr ?_⟩
    rw [hpairs]
    exact ⟨by simp, s₁.next, happly⟩

theorem Selects.tame (h : Selects s₀ selection cs) : Tame selection := by
  cases h.made
  case inl hn => exact hn ▸ tame_nothing
  case inr hm =>
    obtain ⟨hne, n, hm⟩ := hm
    obtain ⟨x, xs, hx⟩ := exists_cons_of_ne_nil hne
    rw [hx] at hm
    refine tame_inclusion hm fun d hd => ?_
    have hst := h.states.states
    rw [hx] at hst
    cases hst
    case cons hc _ =>
      refine told_dom_composed hc.path ?_ hd
      exact forall_mem_cons.mpr ⟨hc.var.ends, fun k hk => (hc.rels k hk).ends⟩

theorem Selects.not_counted (h : Selects s₀ selection cs) (hu : u ∈ told selection) :
    isCountedVariable u = false := by
  cases h.made
  case inl hn => simp [hn] at hu
  case inr hm =>
    obtain ⟨-, n, hm⟩ := hm
    obtain ⟨-, _, -, hm⟩ := apply_eq_ok.mp hm
    rw [hm, told_inclusion, mem_singleton] at hu
    subst hu
    rfl

theorem Selects.nil_of_told (h : Selects s₀ selection cs) (hn : told selection = []) : cs = [] := by
  cases h.made
  case inl hm =>
    have hst := h.states.states
    rw [hm] at hst
    cases hst
    rfl
  case inr hm =>
    obtain ⟨-, n, hm⟩ := hm
    obtain ⟨-, _, -, hm⟩ := apply_eq_ok.mp hm
    rw [hm, told_inclusion] at hn
    cases hn

-- The conditions are found in the selection, however often it is told.
theorem Selects.conditionsFrom_eq (hs : s₀.Faithful) (h : Selects s₀ selection cs)
    (hu : u ∈ told selection) : conditionsFrom u [] = .ok cs ∧ conditionsFrom u cs = .ok cs := by
  cases h.made
  case inl hn => simp [hn] at hu
  case inr hm =>
    obtain ⟨-, n, hm⟩ := hm
    obtain ⟨-, ty, -, hm⟩ := apply_eq_ok.mp hm
    generalize hxs : pairs selection = xs at hm
    have hst := hxs ▸ h.states
    rw [hm, told_inclusion, mem_singleton] at hu
    subst hu
    exact ⟨hst.conditionsOfPairs_nil hs, hst.conditionsOfPairs_again hs⟩

theorem Selects.foldlM_again (hs : s₀.Faithful) (h : Selects s₀ selection cs) {us : List Term}
    (hu : ∀ u ∈ us, u.isVariable ∨ u ∈ told selection) :
    us.foldlM (fun cs u => conditionsFrom u cs) cs = .ok cs := by
  induction us
  case nil => rfl
  case cons u us ih =>
    obtain ⟨hu, hus⟩ := forall_mem_cons.mp hu
    have hc : conditionsFrom u cs = .ok cs := by
      cases hu
      case inl hv => exact conditionsFrom_of_op? (op?_of_isVariable hv) cs
      case inr hm => exact (h.conditionsFrom_eq hs hm).right
    rw [foldlM_cons, hc, ok_bind, ih hus]

theorem Selects.foldlM_nil (hs : s₀.Faithful) (h : Selects s₀ selection cs) {us : List Term}
    (hu : ∀ u ∈ us, u.isVariable ∨ u ∈ told selection) (hm : ∃ u ∈ us, u ∈ told selection) :
    us.foldlM (fun cs u => conditionsFrom u cs) [] = .ok cs := by
  induction us
  case nil => simp at hm
  case cons u us ih =>
    obtain ⟨hu, hus⟩ := forall_mem_cons.mp hu
    rw [foldlM_cons]
    by_cases hs' : u ∈ told selection
    case pos =>
      rw [(h.conditionsFrom_eq hs hs').left, ok_bind]
      exact h.foldlM_again hs hus
    case neg =>
      rw [conditionsFrom_of_op? (op?_of_isVariable (hu.resolve_right hs')), ok_bind]
      exact ih hus (by simpa [hs'] using hm)

theorem Selects.conditions_eq (hs : s₀.Faithful) (h : Selects s₀ selection cs)
    (ht : ∀ u ∈ told t, u.isVariable ∨ u ∈ told selection) (hm : told selection ⊆ told t) :
    conditions t = .ok cs := by
  rw [conditions, conditionsFrom_told]
  cases he : told selection
  case nil =>
    obtain rfl := h.nil_of_told he
    exact h.foldlM_again hs ht
  case cons u us =>
    have hu : u ∈ told selection := by simp [he]
    exact h.foldlM_nil hs ht ⟨u, hm hu, hu⟩

end Selection

end Explanation
end Inquiry
