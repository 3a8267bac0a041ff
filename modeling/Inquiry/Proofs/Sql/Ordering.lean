import Mathlib
import Inquiry.Proofs.Agree
import Inquiry.Proofs.Sql.Faces

/-!
The order of compiled queries. Rows are ordered by nothing else than the marked column, and where
the variable that marks it does not occur in a term, the query is not ordered and no column is marked.
-/

namespace Inquiry

open List Term Text

namespace Term

def kinds : Term → List Term
  | app _ _ args _ => kindsOf args
  | t@(kind ..)    => [t]
  | _              => []
where
  kindsOf : List Term → List Term
    | []      => []
    | t :: ts => t.kinds ++ kindsOf ts

theorem kindsOf_eq (ts : List Term) : kinds.kindsOf ts = ts.flatMap kinds := by
  induction ts
  case nil          => rfl
  case cons t ts ih => simp [kinds.kindsOf, ih]

@[simp]
theorem kinds_app {n : Nat} {op : Op} {ts : List Term} {ty : Option Term} :
    (app n op ts ty).kinds = ts.flatMap kinds := by
  rw [kinds, kindsOf_eq]

@[simp]
theorem kinds_kind {h : KindHead} {ty d c s : Option Term} :
    (kind h ty d c s).kinds = [kind h ty d c s] := by
  simp [kinds]

theorem isKind_of_mem_kinds {k : Term} : (t : Term) → k ∈ t.kinds → k.isKind
  | app _ _ ts _, h => by
    rw [kinds_app] at h
    have ⟨t, ht, hk⟩ := mem_flatMap.mp h
    exact isKind_of_mem_kinds t hk
  | kind .., h => by
    obtain rfl := mem_singleton.mp (kinds_kind ▸ h)
    rfl
  | gap .., h | number _, h | flag _, h | nothing, h => by simp [kinds] at h

end Term

/-- The kinds whose columns an operation puts into the domain and into the codomain, from those of
its arguments. A projection and an operator show columns of what comes before them. -/
def Op.shown : Op → List (List Term × List Term) → List Term × List Term
  | composition, es => (es.getLast?.elim [] (·.1), es.flatMap (·.2))
  | product, es     => (es.head?.elim [] (·.1), es.flatMap (·.2))
  | inclusion, es   => (es.head?.elim [] (·.1), es.head?.elim [] (·.1))
  | inverse, es     => (es.head?.elim [] (·.2), es.head?.elim [] (·.2))
  | aggregation, es => (es[1]?.elim [] (·.2), es.head?.elim [] (·.2))
  | _, _            => ([], [])

namespace Term

/-- The kinds whose columns a term has in its domain and in its codomain. -/
def shown : Term → List Term × List Term
  | app _ op args _ => op.shown (shownOf args)
  | t@(kind ..)     => ([], [t])
  | _               => ([], [])
where
  shownOf : List Term → List (List Term × List Term)
    | []      => []
    | t :: ts => t.shown :: shownOf ts

theorem shownOf_eq (ts : List Term) : shown.shownOf ts = ts.map shown := by
  induction ts
  case nil          => rfl
  case cons t ts ih => simp [shown.shownOf, ih]

theorem shown_app {n : Nat} {op : Op} {ts : List Term} {ty : Option Term} :
    (app n op ts ty).shown = op.shown (ts.map shown) := by
  rw [shown, shownOf_eq]

@[simp]
theorem shown_kind {h : KindHead} {ty d c s : Option Term} :
    (kind h ty d c s).shown = ([], [kind h ty d c s]) := by
  simp [shown]

theorem shown_subset_kinds (t : Term) : t.shown.1 ⊆ t.kinds ∧ t.shown.2 ⊆ t.kinds := by
  cases t
  case app _ op ts _ =>
    have all (t : Term) (ht : t ∈ ts) := shown_subset_kinds t
    have one {o : Option (List Term × List Term)} {f : List Term × List Term → List Term}
        (ho : ∀ e, o = some e → e ∈ ts.map shown) (hf : ∀ t ∈ ts, f t.shown ⊆ t.kinds) :
        o.elim [] f ⊆ ts.flatMap kinds := by
      cases o
      case none => simp
      case some e =>
        obtain ⟨t, ht, rfl⟩ := mem_map.mp (ho e rfl)
        exact fun k hk => mem_flatMap.mpr ⟨t, ht, hf t ht hk⟩
    have each : (ts.map shown).flatMap (·.2) ⊆ ts.flatMap kinds := by
      intro k hk
      obtain ⟨t, ht, hk⟩ := mem_flatMap.mp (flatMap_map .. ▸ hk)
      exact mem_flatMap.mpr ⟨t, ht, (all t ht).2 hk⟩
    have dom (t) (ht : t ∈ ts) := (all t ht).1
    have cod (t) (ht : t ∈ ts) := (all t ht).2
    rw [shown_app, kinds_app]
    cases op
    case composition => exact ⟨one (fun _ => mem_of_getLast?) dom, each⟩
    case product     => exact ⟨one (fun _ => mem_of_head?) dom, each⟩
    case inclusion   =>
      exact ⟨one (fun _ => mem_of_head?) dom, one (fun _ => mem_of_head?) dom⟩
    case inverse     =>
      exact ⟨one (fun _ => mem_of_head?) cod, one (fun _ => mem_of_head?) cod⟩
    case aggregation =>
      exact ⟨one (fun _ => mem_of_getElem?) cod, one (fun _ => mem_of_head?) cod⟩
    all_goals exact ⟨nil_subset _, nil_subset _⟩
  case kind => simp
  all_goals simp [shown]

section Shown

variable {n : Nat} {ts : List Term} {ty : Option Term} {t v w : Term}

theorem shown_cod_subset {op : Op} (ho : op = .composition ∨ op = .product) (ht : t ∈ ts) :
    t.shown.2 ⊆ (app n op ts ty).shown.2 := by
  intro k hk
  obtain rfl | rfl := ho
  all_goals
    simp only [shown_app, Op.shown, flatMap_map, mem_flatMap]
    exact ⟨t, ht, hk⟩

theorem shown_composition_dom (h : ts.getLast? = some t) :
    (app n .composition ts ty).shown.1 = t.shown.1 := by
  simp [shown_app, Op.shown, h]

theorem shown_product_dom (h : ts[0]? = some t) : (app n .product ts ty).shown.1 = t.shown.1 := by
  simp [shown_app, Op.shown, head?_eq_getElem?, h]

theorem shown_inclusion (h : ts[0]? = some t) :
    (app n .inclusion ts ty).shown = (t.shown.1, t.shown.1) := by
  simp [shown_app, Op.shown, head?_eq_getElem?, h]

theorem shown_inverse (h : ts[0]? = some t) :
    (app n .inverse ts ty).shown = (t.shown.2, t.shown.2) := by
  simp [shown_app, Op.shown, head?_eq_getElem?, h]

theorem shown_aggregation (hv : ts[0]? = some v) (hw : ts[1]? = some w) :
    (app n .aggregation ts ty).shown = (w.shown.2, v.shown.2) := by
  simp [shown_app, Op.shown, head?_eq_getElem?, hv, hw]

end Shown

-- A variable of an object type.
structure Own (v : Term) : Prop where
  isVariable : v.isVariable
  domain     : ∃ d, v.domain? = .ok (some d) ∧ d.isObjectType

def columns (k t : Term) : Nat :=
  (t.shown.1 ++ t.shown.2).countP k.equals

end Term

namespace Sql

open SessionM

-- None of the kinds marks a column or is called like a marked one.
def Setting.Clear (r : Setting) (ks : List Term) : Prop :=
  ∀ k ∈ ks, r.key.any (·.equals k) = false ∧
    ∀ h, k.head? = some h → underscored h.name ≠ keyAlias

-- What is known of the query of a term that may be clear of the variable that rows are ordered by,
-- as a whole, in its domain or in its codomain.
structure Body.Traces (clear dom cod : Prop) (n : Nat) (b : Body) : Prop where
  order     : b.orderBy = none ∨ b.orderBy = some keyAlias
  unordered : clear → b.orderBy = none
  domain    : ∀ i ∈ b.domain, i.part < n ∧ (dom → i.face.Plain)
  codomain  : ∀ i ∈ b.codomain, i.part < n ∧ (cod → i.face.Plain)

def Compiled.Traces (clear dom cod : Prop) (n : Nat) : Compiled → Prop
  | .query q => q.toBody.Traces clear dom cod n
  | _        => True

theorem Setting.Clear.mono {r : Setting} {ks ks' : List Term} (h : r.Clear ks) (hs : ks' ⊆ ks) :
    r.Clear ks' :=
  fun k hk => h k (hs hk)

theorem Setting.Clear.arg {r : Setting} {k : Nat} {op : Op} {ts : List Term} {ty : Option Term}
    {t : Term} (h : r.Clear (app k op ts ty).kinds) (ht : t ∈ ts) : r.Clear t.kinds :=
  h.mono fun k hk => by simpa using ⟨t, ht, hk⟩

def Traced (r : Setting) (n : Nat) (t : Term) (c : Compiled) : Prop :=
  c.Traces (r.Clear t.kinds) (r.Clear t.shown.1) (r.Clear t.shown.2) n

variable {clear clear' dom dom' cod cod' : Prop} {m n : Nat} {b b' : Body} {q q' lhs rhs : Query}
  {c : Compiled} {cs : List Compiled} {s : Session} {r : Setting} {t : Term} {ts : List Term}

namespace Body.Traces

theorem mono (h : b.Traces clear dom cod m) (hle : m ≤ n) : b.Traces clear dom cod n where
  order         := h.order
  unordered     := h.unordered
  domain i hi   := ⟨(h.domain i hi).1.trans_le hle, (h.domain i hi).2⟩
  codomain i hi := ⟨(h.codomain i hi).1.trans_le hle, (h.codomain i hi).2⟩

theorem imp (h : b.Traces clear dom cod n) (h₁ : clear' → clear) (h₂ : dom' → dom)
    (h₃ : cod' → cod) : b.Traces clear' dom' cod' n where
  order         := h.order
  unordered     := h.unordered ∘ h₁
  domain i hi   := ⟨(h.domain i hi).1, (h.domain i hi).2 ∘ h₂⟩
  codomain i hi := ⟨(h.codomain i hi).1, (h.codomain i hi).2 ∘ h₃⟩

theorem created (h : b.Traces clear dom cod n)
    (hb : b' = { b with joins := b'.joins, wheres := b'.wheres }) : b'.Traces clear dom cod n := by
  rw [hb]
  exact ⟨h.order, h.unordered, h.domain, h.codomain⟩

end Body.Traces

namespace Compiled.Traces

theorem mono (h : c.Traces clear dom cod m) (hle : m ≤ n) : c.Traces clear dom cod n := by
  cases c
  case query => exact Body.Traces.mono h hle
  all_goals trivial

theorem imp (h : c.Traces clear dom cod n) (h₁ : clear' → clear) (h₂ : dom' → dom)
    (h₃ : cod' → cod) : c.Traces clear' dom' cod' n := by
  cases c
  case query => exact Body.Traces.imp h h₁ h₂ h₃
  all_goals trivial

end Compiled.Traces

theorem forall_of_faces {is js : List Item} (hf : js.map Item.face = is.map Item.face)
    (hp : ∀ j ∈ js, j.part < n) (h : ∀ i ∈ is, clear → i.face.Plain) :
    ∀ j ∈ js, j.part < n ∧ (clear → j.face.Plain) := by
  intro j hj
  refine ⟨hp j hj, fun hc => ?_⟩
  have hm : j.face ∈ is.map Item.face := hf ▸ mem_map_of_mem hj
  have ⟨i, hi, he⟩ := mem_map.mp hm
  exact he ▸ h i hi hc

theorem traces_create {frozen : List Frozen} (h : b.Traces clear dom cod s.parts) :
    (Query.create b frozen).Spends s fun n q => q.Traces clear dom cod n :=
  (Query.spends_create b frozen).imp fun _ _ hle hb => (h.mono hle).created hb

theorem traces_query {frozen : List Frozen} (h : b.Traces clear dom cod s.parts) :
    (Compiled.query <$> Query.create b frozen).Spends s fun n c => c.Traces clear dom cod n :=
  (traces_create h).map fun _ _ _ h => h

theorem traces_freeze (h : q.Traces clear dom cod m) :
    q.freeze.Spends s fun n q' => q'.Traces clear dom cod n := by
  refine q.spends_freeze.imp fun n q' _ hr => ?_
  have ⟨named, hn, hd, hc⟩ := hr.faces
  have plain {is js : List Item} {clear : Prop} (hf : js.map Item.face = is.map (readFace named))
      (hj : ∀ j ∈ js, j ∈ q'.items) (hi : ∀ i ∈ is, i ∈ q.items ∧ (clear → i.face.Plain)) :
      ∀ j ∈ js, j.part < n ∧ (clear → j.face.Plain) := by
    refine fun j hj' => ⟨hr.parts j (hj j hj'), fun hcl => ?_⟩
    have hm : j.face ∈ is.map (readFace named) := hf ▸ mem_map_of_mem hj'
    have ⟨i, hi', he⟩ := mem_map.mp hm
    exact he ▸ plain_readFace hn (hi i hi').1 ((hi i hi').2 hcl)
  refine ⟨hr.orderBy ▸ h.order, fun hcl => hr.orderBy ▸ h.unordered hcl, ?_, ?_⟩
  · exact plain hd (fun j hj => by simp [Body.items, hj]) fun i hi =>
      ⟨by simp [Body.items, hi], (h.domain i hi).2⟩
  · exact plain hc (fun j hj => by simp [Body.items, hj]) fun i hi =>
      ⟨by simp [Body.items, hi], (h.codomain i hi).2⟩

theorem traces_freezeGrouped (sw : Switches) (h : c.Traces clear dom cod s.parts) :
    (freezeGrouped sw c).Spends s fun n c' => c'.Traces clear dom cod n := by
  cases c
  case query q =>
    simp only [freezeGrouped]
    split
    · exact (traces_freeze h).map fun _ _ _ h => h
    · exact spends_pure h
  all_goals exact spends_pure trivial

theorem traces_pickColumns {dims : List Nat} (h : rhs.Traces clear dom cod s.parts) :
    (pickColumns dims rhs).Spends s fun n q => q.Traces clear dom cod n := by
  refine (spends_mapM (R := fun _ _ i => i ∈ rhs.codomain) (fun _ _ _ _ _ h => h) fun _ _ _ _ =>
    (spends_getAt _ _).imp fun _ _ _ h => mem_of_getElem? h).bind fun is s₁ h₁ his => ?_
  refine spends_outcome.bind fun _ s₂ h₂ _ => ?_
  replace h := h.mono (h₁.trans h₂)
  have hc : ∀ i ∈ is, i.part < s₂.parts ∧ (cod → i.face.Plain) := fun i hi =>
    have ⟨_, _, hm⟩ := exists_of_mem_right his hi
    h.codomain i hm
  split
  · exact spends_pure ⟨.inl rfl, fun _ => rfl, h.domain, hc⟩
  · exact spends_pure ⟨h.order, h.unordered, h.domain, hc⟩

theorem isKey_of_plain {i : Item} (h : i.face.Plain) : isKey i ≠ .ok true := by
  cases i
  case column p t n a =>
    have hn : (n == keyAlias) = false := by simpa using h.name
    obtain rfl : a = some "" := by simpa using h.asName
    have ha : ("" == keyAlias) = false := by simp [keyAlias]
    change (if n == keyAlias then pure true else pure ("" == keyAlias)) ≠ Except.ok true
    simp [hn, ha]
  case expr =>
    intro h
    cases h

theorem traces_applyOperator (before between : String) (h : rhs.Traces clear dom cod s.parts) :
    (applyOperator before between rhs).Spends s fun n q => q.Traces clear dom cod n := by
  refine (Item.spends_copies rhs.codomain).bind fun args s₁ h₁ ⟨hf, hp⟩ => ?_
  have made {s₂ : Session} (args : List Item) (a dir : String) (h₂ : s₁.parts ≤ s₂.parts)
      (ha : cod → a = "") : (do return { rhs with
        codomain := [.expr (← newPart) args a before between], orderDir := dir } :
      SessionM Query).Spends s₂ fun n q => q.Traces clear dom cod n := by
    refine spends_newPart.bind fun p s₃ h₃ hp => spends_pure ?_
    refine ⟨h.order, h.unordered, (h.mono (by omega)).domain, fun i hi => ?_⟩
    obtain rfl := mem_singleton.mp hi
    refine ⟨by simp [Item.part]; omega, fun hc => ⟨by simp [ha hc], by simp⟩⟩
  have plain := forall_of_faces hf hp fun i hi => (h.codomain i hi).2
  split
  case isFalse => exact made args "" rhs.orderDir le_rfl fun _ => rfl
  case isTrue ho =>
    refine (spends_getAt _ _).bind fun first s₂ h₂ hfirst => ?_
    refine (spends_ofExcept (P := fun _ b => isKey first = .ok b) fun _ h => h).bind
      fun b s₃ h₃ hb => ?_
    split
    case isTrue hk =>
      have hc := fun hc => isKey_of_plain ((plain first (mem_of_getElem? hfirst)).2 hc)
      exact made _ _ _ (by omega) fun h => absurd (hk ▸ hb) (hc h)
    case isFalse =>
      refine (spends_getAt _ _).bind fun second s₄ h₄ hsecond => ?_
      refine (spends_ofExcept (P := fun _ b => isKey second = .ok b) fun _ h => h).bind
        fun b s₅ h₅ hb => ?_
      split
      case isTrue hk =>
        have hc := fun hc => isKey_of_plain ((plain second (mem_of_getElem? hsecond)).2 hc)
        exact made _ _ _ (by omega) fun h => absurd (hk ▸ hb) (hc h)
      case isFalse => exact made _ _ _ (by omega) fun _ => rfl

theorem outerOrder_cases (lhs rhs : Query) :
    (outerOrder lhs rhs).1 = lhs.orderBy ∧ lhs.orderBy ≠ none ∨
      (outerOrder lhs rhs).1 = rhs.orderBy ∧ isSet lhs.orderBy = false := by
  rw [outerOrder]
  split
  case isTrue h =>
    refine .inl ⟨rfl, fun hn => ?_⟩
    simp [hn, isSet] at h
  case isFalse h => exact .inr ⟨rfl, by simpa using h⟩

-- What a composition through one column takes from its parts.
structure Query.Composes (lhs rhs q : Query) : Prop where
  domain   : q.domain = rhs.domain
  faces    : q.codomain.map Item.face = lhs.codomain.map Item.face
  parts    : q.codomain.map Item.part = lhs.codomain.map Item.part
  orderBy  : q.orderBy = (outerOrder lhs rhs).1
  groups   : q.groups = .by []
  distinct : q.distinct = false

-- The end of a composition through one column.
def Query.composed (lhs rhs : Query) (joins : List Join) (codomain : List Item) :
    SessionM Query :=
  Query.create
    { domain := rhs.domain, codomain, source := rhs.source, joins,
      wheres := lhs.wheres ++ rhs.wheres, orderBy := (outerOrder lhs rhs).1,
      orderDir := (outerOrder lhs rhs).2 }
    (rhs.frozen ++ lhs.frozen)

-- The same, once `table` is known as `asName` by the joins `own`.
def Query.composedAs (lhs rhs : Query) (table asName : String) (own : List Join) :
    SessionM Query := do
  let outer ← ofExcept (lhs.joins.mapM (Join.renameAlias table asName))
  let codomain ← ofExcept (renameTables table asName lhs.codomain)
  lhs.composed rhs (rhs.joins ++ own ++ outer) codomain

theorem Query.spends_composed (joins : List Join) {codomain : List Item}
    (hf : codomain.map Item.face = lhs.codomain.map Item.face)
    (hp : codomain.map Item.part = lhs.codomain.map Item.part) :
    (lhs.composed rhs joins codomain).Spends s fun _ => lhs.Composes rhs := by
  refine (Query.spends_create _ _).imp fun _ q _ hq => ?_
  constructor <;> rw [hq]
  · exact hf
  · exact hp

theorem spends_composeOne (lhs rhs : Query) :
    (composeOne lhs rhs).Spends s fun _ => lhs.Composes rhs := by
  have renamed {s : Session} (table asName : String) (own : List Join) :
      (lhs.composedAs rhs table asName own).Spends s fun _ => lhs.Composes rhs :=
    spends_outcome.bind fun _ _ _ _ =>
      (spends_renameTables _ _ _).bind fun _ _ _ hc => Query.spends_composed _ hc.1 hc.2
  rw [composeOne]
  cases lhs.source
  case none => exact spends_throw
  case some source =>
    dsimp only
    split
    case isTrue => exact Query.spends_composed rhs.joins rfl rfl
    case isFalse =>
      refine (spends_getAt _ _).bind fun _ _ _ _ => (Item.spends_bare _).bind fun cod _ _ _ => ?_
      refine (spends_getAt _ _).bind fun _ _ _ _ => (Item.spends_bare _).bind fun dom _ _ _ => ?_
      refine spends_outcome.bind fun table _ _ _ => spends_outcome.bind fun _ _ _ _ => ?_
      refine spends_outcome.bind fun _ _ _ _ => ?_
      simp only [pure_bind]
      split
      · exact renamed _ _ []
      split
      · exact (Join.spends_create _ _ _).bind fun join _ _ _ => renamed _ _ [join]
      · exact spends_outcome.bind fun name _ _ _ =>
          (Join.spends_create _ _ _).bind fun join _ _ _ => renamed _ _ [join]

theorem traces_order (hl : lhs.Traces clear dom cod m) (hr : rhs.Traces clear dom' cod' n) :
    ((outerOrder lhs rhs).1 = none ∨ (outerOrder lhs rhs).1 = some keyAlias) ∧
      (clear → (outerOrder lhs rhs).1 = none) := by
  obtain ⟨h, _⟩ | ⟨h, _⟩ := outerOrder_cases lhs rhs
  · exact h ▸ ⟨hl.order, hl.unordered⟩
  · exact h ▸ ⟨hr.order, hr.unordered⟩

theorem Query.Composes.traces (h : lhs.Composes rhs q) (hl : lhs.Traces clear dom' cod n)
    (hr : rhs.Traces clear dom cod' n) : q.Traces clear dom cod n := by
  have ⟨ho, hu⟩ := traces_order hl hr
  refine ⟨h.orderBy ▸ ho, h.orderBy ▸ hu, h.domain ▸ hr.domain, ?_⟩
  refine forall_of_faces h.faces (fun j hj => ?_) fun i hi => (hl.codomain i hi).2
  have hm : j.part ∈ lhs.codomain.map Item.part := h.parts ▸ mem_map_of_mem hj
  have ⟨i, hi, he⟩ := mem_map.mp hm
  exact he ▸ (hl.codomain i hi).1

theorem traces_composeMany (hl : lhs.Traces clear dom' cod s.parts)
    (hr : rhs.Traces clear dom cod' s.parts) :
    (composeMany lhs rhs).Spends s fun n q => q.Traces clear dom cod n := by
  refine (traces_freeze hl).bind fun lhs s₁ h₁ hl => (traces_freeze hr).bind fun rhs s₂ h₂ hr => ?_
  refine (spends_each fun p _ _ _ => ?_).bind fun pairs s₃ h₃ _ => ?_
  · exact p.1.spends_bare.bind fun _ _ _ _ => p.2.spends_bare.bind fun _ _ _ _ => spends_pure trivial
  · cases lhs.source
    case none => exact spends_throw
    case some source =>
      refine (Join.spends_create _ _ _).bind fun join s₄ h₄ _ => traces_create ?_
      have ⟨ho, hu⟩ := traces_order hl hr
      exact ⟨ho, hu, (hr.mono (by omega)).domain, (hl.mono (by omega)).codomain⟩

theorem traces_composeTwo {l r : Compiled} (hl : l.Traces clear dom' cod s.parts)
    (hr : r.Traces clear dom cod s.parts) :
    (composeTwo l r).Spends s fun n c => c.Traces clear dom cod n := by
  have two (l r : Query) (hl : l.Traces clear dom' cod s.parts)
      (hr : r.Traces clear dom cod s.parts) :
      (if l.domain.length == 1 then Compiled.query <$> composeOne l r
        else .query <$> composeMany l r : SessionM Compiled).Spends s
          fun n c => c.Traces clear dom cod n := by
    split
    · exact (spends_composeOne l r).map fun _ _ hle h => h.traces (hl.mono hle) (hr.mono hle)
    · exact (traces_composeMany hl hr).map fun _ _ _ h => h
  cases r
  case projection => exact spends_throw
  case query r =>
    cases l
    case query l => exact two l r hl hr
    case operator => exact (traces_applyOperator _ _ hr).map fun _ _ _ h => h
    case projection => exact (traces_pickColumns hr).map fun _ _ _ h => h
    case nothing => exact spends_throw
  all_goals
    cases l
    case query l =>
      change (SessionM.Spends (if _ then _ else _) _ _)
      split
      all_goals exact spends_throw
    all_goals exact spends_throw

theorem traces_compose (h : ∀ c ∈ cs, c.Traces clear False cod s.parts)
    (hd : ∀ c, cs.getLast? = some c → c.Traces clear dom cod s.parts) :
    (compose cs).Spends s fun n c => c.Traces clear dom cod n := by
  have fold (cs : List Compiled) (c : Compiled) (s : Session) (hc : c.Traces clear dom cod s.parts)
      (h : ∀ c ∈ cs, c.Traces clear False cod s.parts) :
      (composeReversed.foldLeft c cs).Spends s fun n c => c.Traces clear dom cod n := by
    induction cs generalizing c s
    case nil => exact spends_pure hc
    case cons l cs ih =>
      have ⟨hl, h⟩ := forall_mem_cons.mp h
      exact (traces_composeTwo hl hc).bind fun c' s' hle hc' =>
        ih c' s' hc' fun c hc => (h c hc).mono hle
  replace h : ∀ c ∈ cs.reverse, c.Traces clear False cod s.parts := by simpa using h
  rw [← head?_reverse] at hd
  rw [compose]
  match cs.reverse, h, hd with
  | [], _, _ => exact spends_throw
  | [c], _, hd => exact spends_pure (hd c rfl)
  | r :: l :: cs, h, hd =>
    refine (traces_composeTwo (h l (by simp)) (hd r rfl)).bind fun c s' hle hc => ?_
    exact fold cs c s' hc fun c hc => (h c (by simp [hc])).mono hle

theorem spends_joinDomains (first : List Item) (joins : List (String × List (Item × Item)))
    (q : Query) : (joinDomains first joins q).Spends s fun _ _ => True := by
  refine spends_foldlM (fun _ _ => trivial) fun joins p s' _ _ => ?_
  refine spends_outcome.bind fun t _ _ _ => spends_outcome.bind fun t' _ _ _ => ?_
  split
  · exact spends_pure fun _ _ => trivial
  · exact p.2.spends_bare.bind fun _ _ _ _ => p.1.spends_bare.bind fun _ _ _ _ =>
      spends_pure fun _ _ => trivial

theorem traced_mapM_freezeGrouped (sw : Switches) (h : Forall₂ (Traced r s.parts) ts cs) :
    (cs.mapM (freezeGrouped sw)).Spends s fun n => Forall₂ (Traced r n) ts :=
  spends_mapM_forall₂ (fun _ _ _ _ hle h => Compiled.Traces.mono h hle) h fun _ _ _ hle h =>
    traces_freezeGrouped sw (h.mono hle)

theorem lastOrder_cases (qs : List Query) : ((lastOrder qs).1 = none ∧ ∀ q ∈ qs, q.orderBy = none) ∨
    ∃ q ∈ qs, (lastOrder qs).1 = q.orderBy ∧ q.orderBy.isSome := by
  let next (acc : Option String × String) (q : Query) :=
    if q.orderBy.isSome then (q.orderBy, q.orderDir) else acc
  have fold (qs : List Query) (acc : Option String × String) :
      ((qs.foldl next acc).1 = acc.1 ∧ ∀ q ∈ qs, q.orderBy = none) ∨
        ∃ q ∈ qs, (qs.foldl next acc).1 = q.orderBy ∧ q.orderBy.isSome := by
    induction qs generalizing acc
    case nil => simp
    case cons q qs ih =>
      simp only [foldl_cons, forall_mem_cons, exists_mem_cons_iff]
      obtain ⟨h, hn⟩ | h := ih (next acc q)
      · cases ho : q.orderBy
        case none   => exact .inl ⟨h.trans (by simp [next, ho]), rfl, hn⟩
        case some k => exact .inr (.inl ⟨h.trans (by simp [next, ho]), rfl⟩)
      · exact .inr (.inr h)
  exact fold qs (none, "")

theorem traces_lastOrder {qs : List Query} (h : ∀ q ∈ qs, q.Traces clear False False n) :
    ((lastOrder qs).1 = none ∨ (lastOrder qs).1 = some keyAlias) ∧
      (clear → (lastOrder qs).1 = none) := by
  obtain ⟨ho, _⟩ | ⟨q, hq, ho, _⟩ := lastOrder_cases qs
  · exact ⟨.inl ho, fun _ => ho⟩
  · exact ho ▸ ⟨(h q hq).order, (h q hq).unordered⟩

-- What a product takes from its parts.
structure Query.Multiplies (qs : List Query) (q : Query) : Prop where
  first    : ∃ p, qs[0]? = some p ∧ q.domain = p.domain ∧ q.groups = p.groups
  codomain : q.codomain = qs.flatMap (·.codomain)
  orderBy  : q.orderBy = (lastOrder qs).1
  distinct : q.distinct = false

variable {sw : Switches} {F : Nat → List Compiled → Prop} {Q : Nat → Compiled → Prop}

theorem spends_compileProduct (hf : (cs.mapM (freezeGrouped sw)).Spends s F)
    (hp : ∀ n dims ds size, cs.head? = some (.projection ds size) → Q n (.projection dims size))
    (hq : ∀ m n qs q, m ≤ n → F m (qs.map .query) → Query.Multiplies qs q → Q n (.query q)) :
    (compileProduct sw cs).Spends s Q := by
  rw [compileProduct.eq_def]
  split
  · refine (spends_each fun c _ _ _ => ?_).bind fun _ _ _ _ => spends_pure (hp _ _ _ _ rfl)
    split
    · exact spends_pure trivial
    · exact spends_throw
  · refine hf.bind fun cs s₁ h₁ hcs => (spends_mapM_asQuery cs).bind fun qs s₂ h₂ hqs => ?_
    refine (spends_getAt _ _).bind fun first s₃ h₃ hf => ?_
    refine (spends_foldlM (fun _ _ => trivial) fun _ _ _ _ _ =>
      (spends_joinDomains _ _ _).imp fun _ _ _ _ _ _ => trivial).bind fun new s₄ h₄ _ => ?_
    refine (spends_each fun _ _ _ _ => Join.spends_create _ _ _).bind fun joins s₅ h₅ _ => ?_
    refine (Query.spends_create _ _).map fun n q h₆ hb => hq s₁.parts n qs q (by omega) (hqs ▸ hcs) ?_
    exact ⟨⟨first, hf, by rw [hb], by rw [hb]⟩, by rw [hb], by rw [hb]; rfl, by rw [hb]⟩

variable {k : Nat} {ty : Option Term}

theorem traced_compileProduct (h : Forall₂ (Traced r s.parts) ts cs) :
    (compileProduct sw cs).Spends s fun n => Traced r n (.app k .product ts ty) := by
  refine spends_compileProduct (traced_mapM_freezeGrouped sw h) (fun _ _ _ _ _ => trivial)
    fun m n qs q hle hqs hq => ?_
  have hall : ∀ q ∈ qs, q.Traces (r.Clear (app k .product ts ty).kinds) False
      (r.Clear (app k .product ts ty).shown.2) n := by
    intro q hq
    have ⟨t, ht, h⟩ := exists_of_mem_right hqs (mem_map_of_mem hq)
    exact Compiled.Traces.imp (h.mono hle) (·.arg ht) False.elim
      (·.mono (shown_cod_subset (.inr rfl) ht))
  have ⟨ho, hu⟩ := traces_lastOrder fun q hq => (hall q hq).imp id id False.elim
  have ⟨p, hp, hd, _⟩ := hq.first
  have ⟨t, ht, h⟩ := exists_getElem?_left hqs (i := 0) (b := .query p) (by simp [hp])
  refine ⟨hq.orderBy ▸ ho, hq.orderBy ▸ hu, ?_, fun i hi => ?_⟩
  · rw [shown_product_dom ht, hd]
    exact (Body.Traces.mono h hle).domain
  · have ⟨q', hq', hi⟩ := mem_flatMap.mp (hq.codomain ▸ hi)
    exact (hall q' hq').codomain i hi

theorem spends_pairConds (qs : List Query) : (pairConds qs).Spends s fun _ _ => True := by
  induction qs using List.twoStepInduction generalizing s
  case nil | singleton => exact spends_pure trivial
  case cons_cons ih _ =>
    refine (spends_each fun _ _ _ _ => ?_).bind fun _ _ _ _ =>
      ih.bind fun _ _ _ _ => spends_pure trivial
    exact spends_newPart.bind fun _ _ _ _ => spends_pure trivial

theorem traced_compileInclusion (h : Forall₂ (Traced r s.parts) ts cs) :
    (compileInclusion sw cs).Spends s fun n => Traced r n (.app k .inclusion ts ty) := by
  refine (traced_mapM_freezeGrouped sw h).bind fun cs s₁ h₁ hcs => ?_
  refine (spends_mapM_asQuery cs).bind fun qs s₂ h₂ hqs => ?_
  refine (spends_getAt _ _).bind fun first s₃ h₃ hf => ?_
  refine (spends_each fun q _ _ _ => ?_).bind fun joins s₄ h₄ _ => ?_
  · refine (spends_getAt _ _).bind fun dim _ _ _ => (spends_getAt _ _).bind fun own _ _ _ => ?_
    refine spends_outcome.bind fun t _ _ _ => spends_outcome.bind fun t' _ _ _ => ?_
    split
    · exact spends_pure trivial
    · exact own.spends_bare.bind fun _ _ _ _ => dim.spends_bare.bind fun _ _ _ _ =>
        (Join.spends_create _ _ _).bind fun _ _ _ _ => spends_pure trivial
  · have ⟨t, ht, hf⟩ := exists_getElem?_left hcs (i := 0) (b := .query first) (by simp [hqs, hf])
    have hf : first.Traces _ _ _ s₁.parts := hf
    refine (Item.spends_copies _).bind fun codomain s₅ h₅ ⟨hc, hp⟩ => ?_
    refine (spends_pairConds qs).bind fun conds s₆ h₆ _ => ?_
    have hb : Body.Traces (r.Clear (app k .inclusion ts ty).kinds) (r.Clear t.shown.1)
        (r.Clear t.shown.1) s₆.parts
        { domain := first.domain, codomain, source := first.source,
          joins := joins.flatten ++ qs.flatMap (·.joins), wheres := first.wheres ++ conds } := by
      refine ⟨.inl rfl, fun _ => rfl, (hf.mono (by omega)).domain, ?_⟩
      exact forall_of_faces hc (fun j hj => (hp j hj).trans_le h₆) fun i hi => (hf.domain i hi).2
    refine (traces_query hb).imp fun n c _ hc => ?_
    rwa [Traced, shown_inclusion ht]

theorem traced_compileInverse (h : Forall₂ (Traced r s.parts) ts cs) :
    (compileInverse sw cs).Spends s fun n => Traced r n (.app k .inverse ts ty) := by
  refine (traced_mapM_freezeGrouped sw h).bind fun cs s₁ h₁ hcs => ?_
  refine (spends_getAt _ _).bind fun c s₂ h₂ hc => ?_
  refine (spends_asQuery c).bind fun q s₃ h₃ hcq => ?_
  have ⟨t, ht, hq⟩ := exists_getElem?_left hcs (hcq ▸ hc)
  have hq : q.Traces _ _ _ s₁.parts := hq
  refine (Item.spends_copies _).bind fun domain s₄ h₄ ⟨hd, hdp⟩ => ?_
  refine (Item.spends_copies _).bind fun codomain s₅ h₅ ⟨hc, hcp⟩ => ?_
  have plain := fun i hi => (hq.codomain i hi).2
  have hu (h : r.Clear (app k .inverse ts ty).kinds) : q.orderBy = none :=
    hq.unordered (h.arg (mem_of_getElem? ht))
  have hb : Body.Traces (r.Clear (app k .inverse ts ty).kinds) (r.Clear t.shown.2)
      (r.Clear t.shown.2) s₅.parts
      { domain, codomain, source := q.source, joins := q.joins, wheres := q.wheres, distinct := true,
        orderBy := q.orderBy, orderDir := q.orderDir } := by
    refine ⟨hq.order, hu, ?_, forall_of_faces hc hcp plain⟩
    exact forall_of_faces hd (fun j hj => (hdp j hj).trans_le h₅) plain
  refine (traces_query hb).imp fun n c _ hc => ?_
  rwa [Traced, shown_inverse ht]

-- The sums of what `v` gives for each row of what `w` gives; they are new parts.
structure Query.Totals (v w : Query) (m n : Nat) (q : Query) : Prop where
  domain   : q.domain = w.codomain
  faces    : q.codomain.map Item.face = v.codomain.map fun i => ⟨some (i.asName?.getD ""), none⟩
  parts    : ∀ i ∈ q.codomain, m ≤ i.part ∧ i.part < n
  orderBy  : q.orderBy = v.orderBy
  grouped  : q.groups.groupsRows

theorem spends_compileAggregation (hf : (cs.mapM (freezeGrouped sw)).Spends s F)
    (hq : ∀ m n cs v w q, m ≤ n → F m cs → cs[0]? = some (.query v) → cs[1]? = some (.query w) →
      Query.Totals v w m n q → Q n (.query q)) : (compileAggregation sw cs).Spends s Q := by
  refine hf.bind fun cs s₁ h₁ hcs => ?_
  refine (spends_getAt _ _).bind fun _ s₂ h₂ hw => (spends_asQuery _).bind fun w s₃ h₃ hcw => ?_
  refine (spends_getAt _ _).bind fun _ s₄ h₄ hv => (spends_asQuery _).bind fun v s₅ h₅ hcv => ?_
  subst hcw hcv
  refine (spends_getAt _ _).bind fun vDim s₆ h₆ _ => spends_outcome.bind fun vTable s₇ h₇ _ => ?_
  have rest {s₈ : Session} (h₈ : s₇.parts ≤ s₈.parts) (joins : List Join) : (do
      let codomain ← v.codomain.mapM fun i => do
        let col ← i.bare
        return Item.expr (← newPart) [col] (i.asName?.getD "") "SUM" "%s"
      let grouped ← ofExcept (w.codomain.filterM fun i => return !(← i.table).isEmpty)
      let columns ← grouped.mapM Item.bare
      Compiled.query <$> Query.create
        { domain := w.codomain, codomain, source := w.source, joins := joins ++ v.joins ++ w.joins,
          wheres := v.wheres ++ w.wheres, groups := if columns.isEmpty then .whole else .by columns,
          orderBy := v.orderBy, orderDir := v.orderDir }
        (v.frozen ++ w.frozen) : SessionM Compiled).Spends s₈ Q := by
    let R (n : Nat) (i j : Item) : Prop :=
      j.face = ⟨some (i.asName?.getD ""), none⟩ ∧ s₁.parts ≤ j.part ∧ j.part < n
    refine (spends_mapM (R := R) (fun m n i j hle h => ⟨h.1, h.2.1, h.2.2.trans_le hle⟩)
      fun i _ s' hs' => i.spends_bare.bind fun _ s₉ h₉ _ => spends_newPart.bind fun p _ _ hp =>
        spends_pure ⟨rfl, by simp [Item.part]; omega⟩).bind fun codomain s₉ h₉ hc => ?_
    refine spends_outcome.bind fun grouped _ h₁₀ _ => ?_
    refine (spends_each fun i _ _ _ => i.spends_bare).bind fun columns _ h₁₁ _ => ?_
    refine (Query.spends_create _ _).map fun n q h₁₂ hb => ?_
    refine hq s₁.parts n cs v w q (by omega) hcs hv hw ?_
    constructor <;> rw [hb]
    case faces => exact (map_eq_map_of_forall₂ hc fun i j hj => hj.1.symm).symm
    case parts =>
      intro j hj
      obtain ⟨_, _, hj⟩ := exists_of_mem_right hc hj
      exact ⟨hj.2.1, hj.2.2.trans_le (by omega)⟩
    case grouped => cases columns <;> rfl
  split
  · exact rest le_rfl []
  · refine (spends_getAt _ _).bind fun wDim s₈ h₈ _ => spends_outcome.bind fun wTable s₉ h₉ _ => ?_
    split
    · exact rest (by omega) []
    · exact vDim.spends_bare.bind fun _ s₁₀ h₁₀ _ => wDim.spends_bare.bind fun _ s₁₁ h₁₁ _ =>
        (Join.spends_create _ _ _).bind fun join s₁₂ h₁₂ _ => rest (by omega) [join]

theorem traced_compileAggregation (h : Forall₂ (Traced r s.parts) ts cs) :
    (compileAggregation sw cs).Spends s fun n => Traced r n (.app k .aggregation ts ty) := by
  refine spends_compileAggregation (traced_mapM_freezeGrouped sw h)
    fun m n cs v w q hle hcs hv hw hq => ?_
  have ⟨t, ht, hv⟩ := exists_getElem?_left hcs hv
  have ⟨u, hu, hw⟩ := exists_getElem?_left hcs hw
  have hv : v.Traces _ _ _ m := hv
  have hw : w.Traces _ _ _ n := hw.mono hle
  rw [Traced, shown_aggregation ht hu]
  have hu (h : r.Clear (app k .aggregation ts ty).kinds) : q.orderBy = none :=
    hq.orderBy ▸ hv.unordered (h.arg (mem_of_getElem? ht))
  refine ⟨hq.orderBy ▸ hv.order, hu, hq.domain ▸ hw.codomain, fun i hi => ?_⟩
  refine ⟨(hq.parts i hi).2, fun hc => ?_⟩
  have hm := hq.faces ▸ mem_map_of_mem (f := Item.face) hi
  have ⟨j, hj, he⟩ := mem_map.mp hm
  have hp := ((hv.codomain j hj).2 hc).asName
  rw [Item.asName_face] at hp
  exact he ▸ ⟨by simp [hp], by simp⟩

theorem identifierColumn_ne (table : String) : identifierColumn table ≠ keyAlias := by
  intro h
  have := congrArg (fun s => s.toList.getLast?) h
  simp [identifierColumn, keyAlias] at this

-- The query of a stored kind with this head, which may be the one that rows are ordered by.
structure Body.Entry (h : KindHead) (isKey : Bool) (n : Nat) (b : Body) : Prop where
  domain   : ∀ i ∈ b.domain, i.face.Plain
  codomain : ∃ c, (c = keyAlias → underscored h.name = keyAlias) ∧
    b.codomain.map Item.face = [⟨some (if isKey then keyAlias else ""), some c⟩]
  parts    : ∀ i ∈ b.items, i.part < n
  orderBy  : b.orderBy = if isKey then some keyAlias else none
  groups   : b.groups = .by []
  distinct : b.distinct = false

variable {h : KindHead} {isKey : Bool}

theorem Body.Entry.traces (hb : b.Entry h isKey n) (hk : clear → isKey = false)
    (hn : clear → underscored h.name ≠ keyAlias) : b.Traces clear dom clear n := by
  have ⟨c, hc, hf⟩ := hb.codomain
  refine ⟨?_, fun hcl => by simp [hb.orderBy, hk hcl], fun i hi => ?_, fun i hi => ?_⟩
  · cases isKey <;> simp [hb.orderBy]
  · exact ⟨hb.parts i (by simp [items, hi]), fun _ => hb.domain i hi⟩
  · refine ⟨hb.parts i (by simp [items, hi]), fun hcl => ?_⟩
    have hm : i.face ∈ b.codomain.map Item.face := mem_map_of_mem hi
    rw [hf, mem_singleton] at hm
    rw [hm, hk hcl]
    exact ⟨rfl, fun he => hn hcl (hc (Option.some.inj he))⟩

theorem entry_storedColumn (isKey : Bool) (table dir : String) :
    (storedColumn table (underscored h.name) (if isKey then keyAlias else "")
      (if isKey then some keyAlias else none) dir).Spends s
        fun n q => q.Entry h isKey n ∧ q.domain.length = 1 := by
  refine (Item.spends_create ..).bind fun dom s₁ _ ⟨hdf, hdp⟩ => ?_
  refine (Item.spends_create ..).bind fun cod s₂ h₂ ⟨hcf, hcp⟩ => ?_
  refine spends_newPart.bind fun p s₃ h₃ _ => ?_
  refine (Query.spends_create _ _).imp fun n q h₄ hb => ?_
  refine ⟨?_, by rw [hb]; rfl⟩
  constructor <;> rw [hb]
  case domain =>
    simp only [mem_singleton, forall_eq, hdf]
    exact ⟨rfl, fun he => identifierColumn_ne table (Option.some.inj he)⟩
  case codomain => exact ⟨_, id, by simp [hcf]⟩
  case parts =>
    simp only [Body.items, singleton_append, forall_mem_cons]
    exact ⟨by omega, by omega, by simp⟩

theorem entry_compileImmediate (r : Setting) (t : Term) {value : String} (hv : value ≠ keyAlias) :
    (compileImmediate r t value isKey).Spends s
      fun n q => q.Entry h isKey n ∧ (t.Own → q.domain.length = 1) := by
  have rest {s : Session} {domain : List Item} (source : Option Source)
      (hd : ∀ i ∈ domain, i.face.Plain ∧ i.part < s.parts) (hl : t.Own → domain.length = 1) : (do
      let cod ← Item.create "" value (if isKey then keyAlias else "")
      Query.create
        { domain, codomain := [cod], source, orderBy := if isKey then some keyAlias else none
          orderDir := r.order } [] : SessionM Query).Spends s
        fun n q => q.Entry h isKey n ∧ (t.Own → q.domain.length = 1) := by
    refine (Item.spends_create ..).bind fun cod s₁ h₁ ⟨hcf, hcp⟩ => ?_
    refine (Query.spends_create _ _).imp fun n q h₂ hb => ?_
    refine ⟨?_, by rw [hb]; exact hl⟩
    constructor <;> rw [hb]
    case domain => exact fun i hi => (hd i hi).1
    case codomain => exact ⟨value, (absurd · hv), by simp [hcf]⟩
    case parts =>
      intro i hi
      cases mem_append.mp hi
      case inl hi => exact (hd i hi).2.trans_le (by omega)
      case inr hi => exact mem_singleton.mp hi ▸ hcp.trans_le h₂
  refine (spends_ofExcept (P := fun _ d => t.domain? = .ok d) fun _ hd => hd).bind fun d s₁ _ hd => ?_
  have missing (hn : ∀ d', d = some d' → ¬d'.isObjectType) : t.Own → ([] : List Item).length = 1 := by
    intro ho
    have ⟨d', hd', ht⟩ := ho.domain
    exact absurd ht (hn d' (Except.ok.inj (hd.symm.trans hd')))
  match d, missing with
  | some (.kind h' _ _ _ _), missing =>
    dsimp only
    split
    case isTrue =>
      simp only [pure_bind]
      refine (Item.spends_create ..).bind fun dom s₂ _ ⟨hdf, hdp⟩ => ?_
      refine spends_newPart.bind fun p s₃ h₃ _ => ?_
      refine rest _ (forall_mem_singleton.mpr ⟨?_, hdp.trans_le h₃⟩) fun _ => rfl
      rw [hdf]
      exact ⟨rfl, fun he => identifierColumn_ne _ (Option.some.inj he)⟩
    case isFalse hc =>
      refine rest none (by simp) (missing ?_)
      rintro _ ⟨⟩
      simpa [isObjectType, hasClass, cls?] using hc
  | none, missing => exact rest none (by simp) (missing (by simp))
  | some (.gap ..), missing | some (.app ..), missing | some (.number _), missing
  | some (.flag _), missing | some .nothing, missing =>
    refine rest none (by simp) (missing ?_)
    rintro _ ⟨⟩
    simp [isObjectType, hasClass, cls?]

theorem entry_compileVariable (r : Setting) (t : Term) : (compileVariable r t h).Spends s
    fun n q => q.Entry h (r.key.any (·.equals t)) n ∧ (t.Own → q.domain.length = 1) := by
  refine spends_outcome.bind fun codName _ _ _ => ?_
  split
  · exact entry_compileImmediate r t (by simp [keyAlias])
  split
  · exact entry_compileImmediate r t (by simp [keyAlias])
  · exact (entry_storedColumn _ _ _).imp fun _ _ _ h => ⟨h.1, fun _ => h.2⟩

theorem traces_compileConstant :
    (compileConstant h).Spends s fun n q => q.Traces clear dom cod n := by
  rw [compileConstant]
  cases h.code
  case none => exact spends_throw
  case some code =>
    refine (Item.spends_create ..).bind fun dom s₁ _ ⟨hdf, hdp⟩ => ?_
    refine (Item.spends_create ..).bind fun cod s₂ h₂ ⟨hcf, hcp⟩ => ?_
    refine spends_newPart.bind fun p s₃ h₃ _ => traces_create ?_
    refine ⟨.inl rfl, fun _ => rfl, ?_, ?_⟩
    · refine forall_mem_singleton.mpr ⟨by omega, fun _ => hdf ▸ ⟨rfl, by simp [keyAlias]⟩⟩
    · refine forall_mem_singleton.mpr ⟨by omega, fun _ => hcf ▸ ⟨rfl, fun he => ?_⟩⟩
      have := congrArg (fun s => s.toList.head?) (Option.some.inj he)
      simp [keyAlias] at this

theorem Setting.Clear.kind {ty d c cs : Option Term} (hc : r.Clear [.kind h ty d c cs]) :
    r.key.any (·.equals (.kind h ty d c cs)) = false ∧ underscored h.name ≠ keyAlias :=
  have ⟨hk, hn⟩ := hc (.kind h ty d c cs) (by simp)
  ⟨hk, hn h rfl⟩

theorem traced_compileKind (r : Setting) {ty d c cs : Option Term} :
    (compileKind r (.kind h ty d c cs) h).Spends s
      fun n => Traced r n (.kind h ty d c cs) := by
  have entry {isKey : Bool} {n : Nat} {q : Query} (hq : q.Entry h isKey n)
      (hk : r.Clear [.kind h ty d c cs] → isKey = false) :
      Traced r n (.kind h ty d c cs) (.query q) := by
    rw [Traced, kinds_kind, shown_kind]
    exact hq.traces hk (·.kind.2)
  rw [compileKind]
  split
  · exact (entry_compileVariable r _).map fun n q _ hq => entry hq.1 (·.kind.1)
  split
  · exact (entry_storedColumn false _ _).map fun n q _ hq => entry hq.1 fun _ => rfl
  split
  · exact traces_compileConstant.map fun _ _ _ hq => hq
  split
  · rw [compileOperator]
    split <;> exact spends_pure trivial
  · exact spends_pure trivial

mutual

-- Where the variable that rows are ordered by does not occur, nothing is marked.
theorem traced_compileTerm (r : Setting) (s : Session) : (t : Term) →
    (compileTerm r t).Spends s fun n => Traced r n t
  | .app k op args ty => by
    have all := traced_compileAll r s args
    cases op
    case projection =>
      change (compileProjection args).Spends s _
      rw [compileProjection.eq_def]
      split
      · exact spends_throw
      · split
        · exact spends_pure trivial
        · exact spends_throw
    case composition =>
      refine all.bind fun cs _ _ hcs => (traced_mapM_freezeGrouped _ hcs).bind fun cs s' _ hcs => ?_
      refine traces_compose (fun c hc => ?_) fun c hc => ?_
      · have ⟨t, ht, h⟩ := exists_of_mem_right hcs hc
        exact h.imp (·.arg ht) False.elim (·.mono (shown_cod_subset (.inl rfl) ht))
      · rw [getLast?_eq_getElem?, ← hcs.length_eq] at hc
        have ⟨t, ht, h⟩ := exists_getElem?_left hcs hc
        have hm := mem_of_getElem? ht
        rw [shown_composition_dom (getLast?_eq_getElem?.trans ht)]
        exact h.imp (·.arg hm) id (·.mono (shown_cod_subset (.inl rfl) hm))
    case product     => exact all.bind fun _ _ _ => traced_compileProduct
    case inclusion   => exact all.bind fun _ _ _ => traced_compileInclusion
    case inverse     => exact all.bind fun _ _ _ => traced_compileInverse
    case aggregation => exact all.bind fun _ _ _ => traced_compileAggregation
    all_goals exact spends_pure trivial
  | .kind .. => traced_compileKind r
  | .gap .. | .number _ | .flag _ | .nothing => spends_pure trivial

theorem traced_compileAll (r : Setting) (s : Session) : (ts : List Term) →
    (compileTerm.compileAll r ts).Spends s fun n => Forall₂ (Traced r n) ts
  | []      => spends_pure .nil
  | t :: ts => by
    refine (traced_compileTerm r s t).bind fun c s₁ _ hc => ?_
    refine (traced_compileAll r s₁ ts).bind fun cs s₂ h₂ hcs => ?_
    exact spends_pure (.cons (hc.mono h₂) hcs)

end

end Sql
end Inquiry
