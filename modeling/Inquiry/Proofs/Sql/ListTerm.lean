import Mathlib
import Inquiry.Proofs.Sql.ListComposition

/-!
Terms that ask for lists, and the queries that they are compiled to. Paths of relations become chains
of joins, products put them side by side, and inclusions add conditions.
-/

namespace Inquiry

open List Term KindClass Text

namespace Sql

open SessionM

variable {table : String} {hs : List Hop} {ts : List Test} {outs : List (String × String)}
  {us : List Term} {r : Setting} {t : Term}

-- A name is stored in one design only, which is called after a table of its own.
structure StoredIn (r : Setting) (name table : String) : Prop where
  design  : ∃ d, r.designs.filter (fun d => d.constr?.any (mentions name)) = [d] ∧ d.printed = table
  named   : table.isEmpty = false
  lasting : isTemporary table = false

-- The element is a relation or a variable of the members of a table, and its values are in a column.
inductive Reads (r : Setting) (table : String) : Term → String → Prop
  | ofRelation {h ty d c s column} : h.cls.isRelation → (d.name = .ok table) →
    (column = underscored h.name) → StoredIn r column table →
    Reads r table (.kind h ty (some d) c s) column
  | ofVariable {h ty d c s n column} : h.cls = .variable → (d.name = .ok table) → (c.name = .ok n) →
    n ≠ "1" → isCounting h.name = false → StoredIn r h.name table →
    (column = underscored h.name) → Reads r table (.kind h ty (some d) (some c) s) column

-- The relation has the members of a table for its values.
def LeadsTo (table : String) (f : Term) : Prop :=
  ∃ h ty d c s, f = .kind h ty d (some c) s ∧ h.cls.isRelation ∧ c.name = .ok table

-- The elements, the last one first, are read one after the other along a route.
inductive Walks (r : Setting) (table : String) : List Term → Route → Prop
  | single {f c} : Reads r table f c → Walks r table [f] ⟨[], c⟩
  | cons {f g fs c t p} : Reads r t f c → LeadsTo t g → Walks r table (g :: fs) p →
    Walks r table (f :: g :: fs) ⟨⟨p.column, t⟩ :: p.links, c⟩

def IsPath (r : Setting) (table : String) (t : Term) (p : Route) : Prop :=
  ∃ fs, Walks r table fs p ∧ (fs = [t] ∨ ∃ n ty, t = .app n .composition fs ty)

def IsConstant (t : Term) (value : String) : Prop :=
  ∃ h ty d c s code, t = .kind h ty d c s ∧ h.cls = .constant ∧ h.code = some code ∧
    value = underscored code

-- The variable that gives the same for all members of an object type.
def TakesAll (table : String) (t : Term) : Prop :=
  ∃ h ty o ty' d' c' s' c s, t = .kind h ty (some (.kind o ty' d' c' s')) (some c) s ∧
    h.cls = .variable ∧ c.name = .ok "1" ∧ o.cls = .objectType ∧ o.name = table

-- The element gives a constant for all members of an object type.
def Chooses (table : String) (t : Term) (value : String) : Prop :=
  ∃ n ty k a, t = .app n .composition [k, a] ty ∧ IsConstant k value ∧ TakesAll table a

inductive Conditions (r : Setting) (table : String) : List Term → List (Route × String) → Prop
  | nil : Conditions r table [] []
  | cons {t u us p v cs} : IsPath r table t p → Chooses table u v → Conditions r table us cs →
    Conditions r table (t :: u :: us) ((p, v) :: cs)

inductive Outputs (r : Setting) (table : String) : Term → List Route → Prop
  | path {t p} : IsPath r table t p → Outputs r table t [p]
  | product {n ts ty ps} : 2 ≤ ts.length → Forall₂ (IsPath r table) ts ps →
    Outputs r table (.app n .product ts ty) ps

theorem StoredIn.tableOf {name : String} (h : StoredIn r name table) : tableOf r name = table := by
  have ⟨d, hd, ht⟩ := h.design
  simp [Sql.tableOf, findDesign, ← head?_filter, hd, ht]

theorem Reads.isTable {f : Term} {c : String} (h : Reads r table f c) :
    table.isEmpty = false ∧ isTemporary table = false := by
  cases h
  case ofRelation hs => exact ⟨hs.named, hs.lasting⟩
  case ofVariable hs _ => exact ⟨hs.named, hs.lasting⟩

section

variable {r : Setting} (hk : r.key = none)
include hk

theorem Reads.makes_compileTerm {f : Term} {c : String} (h : Reads r table f c) :
    (compileTerm r f).Makes (Compiled.Lists table [] [] [(table, c)]) := by
  cases h
  case ofRelation h ty d c s hc hd hcol hs =>
    have hv : (h.cls == .variable) = false := by cases hh : h.cls <;> simp_all [KindClass.isRelation]
    simp only [compileTerm, compileKind, hv, hc, Bool.false_eq_true, if_false, if_true]
    refine Makes.map ?_ fun q hq => ⟨q, rfl, hq⟩
    simp only [compileRelation, ← hcol, hs.tableOf]
    exact makes_storedColumn
  case ofVariable h ty d c s n hc hd hcn hn hcount hs hcol =>
    simp only [compileTerm, compileKind, hc, beq_self_eq_true, if_true]
    refine Makes.map ?_ fun q hq => ⟨q, rfl, hq⟩
    have hcod : (do (← (kind h ty (some d) (some c) s).codomain).name) = .ok n := by
      simp [codomain, codomain?, isElement, isType, hc, hcn]
    unfold compileVariable
    refine Makes.ofExcept_bind hcod ?_
    simp only [hk, Option.any_none, beq_iff_eq, hn, if_false, hcount, Bool.false_eq_true, hs.tableOf,
      ← hcol]
    exact makes_storedColumn

end

theorem makes_compileAll_cons {R : α → Compiled → Prop} {a : α} {as : List α}
    (ht : (compileTerm r t).Makes (R a))
    (hus : (compileTerm.compileAll r us).Makes (Forall₂ R as)) :
    (compileTerm.compileAll r (t :: us)).Makes (Forall₂ R (a :: as)) :=
  ht.bind fun _ hc => hus.bind fun _ hcs => makes_pure (.cons hc hcs)

theorem makes_compileAll {R : α → Compiled → Prop} {S : Term → α → Prop} {as : List α}
    (h : ∀ t a, S t a → (compileTerm r t).Makes (R a)) (hs : Forall₂ S us as) :
    (compileTerm.compileAll r us).Makes (Forall₂ R as) := by
  induction hs
  case nil              => exact makes_pure .nil
  case cons t a _ _ hta _ ih => exact makes_compileAll_cons (h t a hta) ih

def Compiled.Along (table : String) (p : Route) (c : Compiled) : Prop :=
  c.Lists table (firsts Hop.key (hops table p.links)) [] [(nameAfter table p.links, p.column)]

-- The queries for lists can be composed, and what comes out has a property.
structure Composes (cs : List Compiled) (P : Compiled → Prop) : Prop where
  some   : cs ≠ []
  lists  : ∀ c ∈ cs, ∃ table hs ts outs, c.Lists table hs ts outs
  result : (compose cs).Makes P

theorem Composes.cons {c : Compiled} {cs : List Compiled} {P Q : Compiled → Prop}
    (h : Composes cs P) (hc : c.Lists table hs ts outs)
    (hq : ∀ c', P c' → (composeTwo c c').Makes Q) : Composes (c :: cs) Q where
  some   := by simp
  lists  := forall_mem_cons.mpr ⟨⟨_, _, _, _, hc⟩, h.lists⟩
  result := compose_cons h.some ▸ h.result.bind hq

theorem Compiled.Lists.composes {c : Compiled} (h : c.Lists table hs ts outs) :
    Composes [c] (Compiled.Lists table hs ts outs) where
  some   := by simp
  lists  := by simpa using ⟨_, _, _, _, h⟩
  result := makes_pure h

section

variable {r : Setting} {P Q : Compiled → Prop} {t : Term} {us : List Term}

theorem makes_composes_single (h : (compileTerm r t).Makes (Compiled.Lists table hs ts outs)) :
    (compileTerm.compileAll r [t]).Makes fun cs =>
      Composes cs (Compiled.Lists table hs ts outs) :=
  h.bind fun _ hc => (makes_pure rfl).bind fun _ he => makes_pure (he ▸ hc.composes)

theorem makes_composes_cons (ht : (compileTerm r t).Makes (Compiled.Lists table hs ts outs))
    (hus : (compileTerm.compileAll r us).Makes fun cs => Composes cs P)
    (hq : ∀ c c', c.Lists table hs ts outs → P c' → (composeTwo c c').Makes Q) :
    (compileTerm.compileAll r (t :: us)).Makes fun cs => Composes cs Q :=
  ht.bind fun c hc => hus.bind fun _ hcs => makes_pure (hcs.cons hc fun c' => hq c c' hc)

theorem makes_composition {n : Nat} {ty : Option Term} (hf : r.switches.freezeAll = false)
    (h : (compileTerm.compileAll r us).Makes fun cs => Composes cs P) :
    (compileTerm r (.app n .composition us ty)).Makes P :=
  h.bind fun cs hcs => by simpa [mapM_freezeGrouped hf hcs.lists] using hcs.result

end

section

variable {r : Setting} (hk : r.key = none) (hf : r.switches.freezeAll = false) {p : Route}
include hk

-- The elements of a path, in front of something that they are composed with: what holds of the last
-- element of the path goes along the links.
theorem Walks.makes_compose {us tail : List Term} (ht : firsts Test.text ts = ts)
    (h₀ : ∀ f c, Reads r table f c → (compileTerm.compileAll r (f :: tail)).Makes fun cs =>
      Composes cs (Compiled.Lists table (firsts Hop.key hs) ts [(table, c)]))
    (h : Walks r table us p) : (compileTerm.compileAll r (us ++ tail)).Makes fun cs =>
      Composes cs (Compiled.Lists table (firsts Hop.key (hs ++ hops table p.links)) ts
        [(nameAfter table p.links, p.column)]) := by
  induction h
  case single f c hf => simpa [hops, nameAfter] using h₀ f c hf
  case cons f g fs c t p hf _ _ ih =>
    obtain ⟨hn, hl⟩ := hf.isTable
    refine makes_composes_cons (hf.makes_compileTerm hk) ih fun c c' hc hc' => ?_
    refine (hc.makes_composeTwo hc' fun l q hl' hq => makes_link (k := ⟨p.column, t⟩) hl' hq hn hl).imp ?_
    rintro c ⟨q, hcq, hq⟩
    rw [firsts_firsts_append, append_assoc, ht] at hq
    exact ⟨q, hcq, hq⟩

theorem Walks.makes_along {us : List Term} (h : Walks r table us p) :
    (compileTerm.compileAll r us).Makes fun cs => Composes cs (Compiled.Along table p) := by
  have hw : (compileTerm.compileAll r (us ++ [])).Makes fun cs => Composes cs
      (Compiled.Lists table (firsts Hop.key ([] ++ hops table p.links)) []
        [(nameAfter table p.links, p.column)]) :=
    h.makes_compose hk rfl fun f c hf => makes_composes_single (hf.makes_compileTerm hk)
  rw [append_nil, nil_append] at hw
  exact hw

include hf in
theorem IsPath.makes_compileTerm {t : Term} (h : IsPath r table t p) :
    (compileTerm r t).Makes (Compiled.Along table p) := by
  have ⟨fs, hw, ht⟩ := h
  cases ht
  case inl ht =>
    subst ht
    cases hw
    case single hr => exact hr.makes_compileTerm hk
  case inr ht =>
    obtain ⟨_, _, rfl⟩ := ht
    exact makes_composition hf (hw.makes_along hk)

end

theorem makes_create_plain {b : Body} (hj : b.joins = []) (hw : b.wheres = []) :
    (Query.create b []).Makes fun q => q.toBody = b ∧ q.frozen = [] := by
  have ht : b.tidy = .ok b := by
    simp only [Body.tidy, hj, hw, foldlM_nil]
    cases b
    simp_all
  exact Makes.ofExcept_bind ht <| makes_newPart.bind fun _ _ => makes_pure ⟨rfl, rfl⟩

theorem makes_compileConstant {h : KindHead} {code : String} (hc : h.code = some code) :
    (compileConstant h).Makes fun q => q.frozen = [] ∧ ∃ p p₁ i,
      Gives ("", "'" ++ underscored code ++ "'") i ∧
      q.toBody = { domain := [.column p₁ "" "'*'" (some "")], codomain := [i], source := some ⟨p, "", ""⟩ } := by
  unfold compileConstant
  simp only [hc]
  refine makes_item.bind fun dom ⟨p₁, hd⟩ => makes_item.bind fun cod hc => makes_newPart.bind fun p _ => ?_
  refine (makes_create_plain rfl rfl).imp fun q ⟨hq, hf⟩ => ⟨hf, p, p₁, cod, hc, ?_⟩
  simp [hq, hd]

section

variable {r : Setting} (hk : r.key = none) (hf : r.switches.freezeAll = false)
  {cs : List (Route × String)} {us : List Term} {t : Term}
include hk

theorem TakesAll.makes_compileTerm (h : TakesAll table t) :
    (compileTerm r t).Makes (Compiled.Lists table [] [] [("", "'*'")]) := by
  obtain ⟨h, ty, o, ty', d', c', s', c, s, rfl, hc, hn, ho, hname⟩ := h
  simp only [compileTerm, compileKind, hc, beq_self_eq_true, if_true]
  refine Makes.map ?_ fun q hq => ⟨q, rfl, hq⟩
  have he : h.cls.isElement := by simp [isElement, isType, hc]
  unfold compileVariable
  refine Makes.ofExcept_bind (a := "1") (by simp [codomain, codomain?, he, hn]) ?_
  simp only [hk, Option.any_none, beq_self_eq_true, if_true]
  unfold compileImmediate
  refine Makes.ofExcept_bind (a := some (.kind o ty' d' c' s')) (by simp [domain?, he]) ?_
  simp only [ho, beq_self_eq_true, if_true, hname, Bool.false_eq_true, if_false]
  refine makes_item.bind fun dom hd => makes_newPart.bind fun p _ => ?_
  simp only [pure_bind]
  refine makes_item.bind fun cod hc => ?_
  exact makes_create ⟨⟨dom, hd, rfl⟩, .cons hc .nil, ⟨p, rfl⟩, .nil, .nil, rfl, rfl, rfl⟩ rfl rfl

include hf in
theorem Chooses.makes_compileTerm {v : String} (h : Chooses table t v) :
    (compileTerm r t).Makes (Compiled.Lists table [] [] [("", "'" ++ v ++ "'")]) := by
  obtain ⟨n, ty, k, a, rfl, ⟨h, hty, d, c, s, code, rfl, hc, hcode, rfl⟩, ha⟩ := h
  simp only [compileTerm, compileTerm.compileAll, compileKind, hc, bind_assoc, pure_bind, reduceCtorEq,
    beq_iff_eq, if_false, KindClass.isRelation, Bool.false_eq_true, if_true, map_eq_pure_bind]
  refine (makes_compileConstant hcode).bind ?_
  rintro l ⟨hfl, p, p₁, i, hi, hl⟩
  refine (ha.makes_compileTerm hk).bind ?_
  rintro _ ⟨q, rfl, hq⟩
  have horder : (outerOrder l q).1 = none := by simp [outerOrder, hl, hq.orderBy, isSet]
  have hone : l.domain.length = 1 := by simp [hl]
  have hcomp : compose [.query l, .query q] = .query <$> composeOne l q := by
    simp [compose, composeReversed, composeReversed.foldLeft, composeTwo, Compiled.asQuery, hone]
  simp only [mapM_cons, mapM_nil, freezeGrouped_query hf hq.groups hq.distinct, pure_bind,
    freezeGrouped_query hf (show l.groups = .by [] by simp [hl]) (show l.distinct = false by simp [hl]),
    hcomp]
  refine Makes.map ?_ fun q hq => ⟨q, rfl, hq⟩
  have he : "".isEmpty = true := rfl
  simp only [composeOne, hl, hfl, hq.frozen, he, if_true, pure_bind]
  exact makes_create ⟨hq.domain, .cons hi .nil, hq.source, hq.joins, hq.wheres, rfl, rfl, horder⟩ rfl rfl

include hf in
theorem Outputs.makes_compileTerm {ps : List Route} (h : Outputs r table t ps) :
    (compileTerm r t).Makes (Compiled.Lists table
      (firsts Hop.key (ps.flatMap fun p => hops table p.links)) []
      (ps.map fun p => (nameAfter table p.links, p.column))) := by
  cases h
  case path p hp =>
    simp only [flatMap_singleton, map_cons, map_nil]
    exact hp.makes_compileTerm hk hf
  case product n us ty hn hp =>
    simp only [compileTerm]
    refine (makes_compileAll (fun _ _ h => h.makes_compileTerm hk hf) hp).bind fun cs hcs => ?_
    have hne : ps.map (fun p => (firsts Hop.key (hops table p.links),
        [(nameAfter table p.links, p.column)])) ≠ [] := by
      have := hp.length_eq
      intro h
      simp_all
    have hm := makes_compileProduct hf hne (forall₂_map_left_iff.mpr hcs)
    simp only [flatMap_map, firsts_flatMap_firsts] at hm
    rwa [map_eq_flatMap]

include hf in
theorem Conditions.makes_compileAll (h : Conditions r table us cs) :
    (compileTerm.compileAll r us).Makes
      (Forall₂ (fun a c => c.Lists table a.1 [] a.2) (cs.flatMap (conditionParts table))) := by
  induction h
  case nil => exact makes_pure .nil
  case cons ht hu _ ih =>
    exact makes_compileAll_cons (ht.makes_compileTerm hk hf) <|
      makes_compileAll_cons (hu.makes_compileTerm hk hf) ih

include hf in
theorem Conditions.makes_inclusion {n : Nat} {ty : Option Term} (h : Conditions r table us cs)
    (hn : cs ≠ []) :
    (compileTerm r (.app n .inclusion us ty)).Makes (Compiled.Lists table
      (firsts Hop.key (cs.flatMap fun c => hops table c.1.links))
      (firsts Test.text (cs.map (testOf table))) [(table, identifierColumn table)]) := by
  simp only [compileTerm]
  exact (h.makes_compileAll hk hf).bind fun ds hds => makes_compileInclusion hf hn hds

include hf in
-- The identifier of a row leads to the row itself, so that no join is needed.
theorem Reads.makes_chosen {f : Term} {c : String} {n : Nat} {ty : Option Term}
    (h : Reads r table f c) (hc : Conditions r table us cs) (hn : cs ≠ []) :
    (compileTerm.compileAll r [f, .app n .inclusion us ty]).Makes fun ds =>
      Composes ds (Compiled.Lists table (firsts Hop.key (cs.flatMap fun c => hops table c.1.links))
        (firsts Test.text (cs.map (testOf table))) [(table, c)]) := by
  have hk' : Link.isLoop ⟨identifierColumn table, table⟩ table := by simp [Link.isLoop]
  refine makes_composes_cons (h.makes_compileTerm hk)
    (makes_composes_single (hc.makes_inclusion hk hf hn)) fun d d' hd hd' => ?_
  refine (hd.makes_composeTwo hd' fun l q hl hq =>
    makes_link (k := ⟨identifierColumn table, table⟩) hl hq h.isTable.left h.isTable.right).imp ?_
  rintro d ⟨q, hdq, hq⟩
  simp only [hk', if_true, append_nil, firsts_firsts] at hq
  exact ⟨q, hdq, hq⟩

end

-- The term asks for a list: it is what the outputs give, maybe of some rows only, which an inclusion
-- chooses.
inductive AsksList (r : Setting) : Term → Listing → Prop
  | all {t table ps} : Outputs r table t ps → AsksList r t ⟨table, ps, []⟩
  | some {n m t us ty ty' table ps cs} : Outputs r table t ps → Conditions r table us cs → cs ≠ [] →
    AsksList r (.app n .composition [t, .app m .inclusion us ty] ty') ⟨table, ps, cs⟩
  -- the same, without a composition of its own for the path
  | along {n m fs us ty ty' table p cs} : Walks r table fs p → Conditions r table us cs → cs ≠ [] →
    AsksList r (.app n .composition (fs ++ [.app m .inclusion us ty]) ty') ⟨table, [p], cs⟩

theorem Walks.named {p : Route} (h : Walks r table us p) : table.isEmpty = false := by
  induction h
  case single h => exact h.isTable.left
  case cons ih  => exact ih

theorem Outputs.named {ps : List Route} (h : Outputs r table t ps) : table.isEmpty = false := by
  cases h
  case path hp =>
    have ⟨_, hw, _⟩ := hp
    exact hw.named
  case product hn hp =>
    cases hp
    case nil => simp at hn
    case cons hp _ =>
      have ⟨_, hw, _⟩ := hp
      exact hw.named

theorem AsksList.named {l : Listing} (h : AsksList r t l) : l.table.isEmpty = false := by
  cases h
  case all hp      => exact hp.named
  case some hp _ _ => exact hp.named
  case along hp _ _ => exact hp.named

theorem AsksList.makes_compileTerm {l : Listing} (hk : r.key = none)
    (hf : r.switches.freezeAll = false) (h : AsksList r t l) : (compileTerm r t).Makes
      (Compiled.Lists l.table (firsts Hop.key l.hops) (firsts Test.text l.tests) l.columns) := by
  cases h
  case all hp => exact hp.makes_compileTerm hk hf
  case some n m t us ty ty' table ps cs hp hc hn =>
    refine makes_composition hf <| makes_composes_cons (hp.makes_compileTerm hk hf)
      (makes_composes_single (hc.makes_inclusion hk hf hn)) fun c c' hc hc' => ?_
    refine (hc.makes_composeTwo hc' fun l q hl hq => makes_restrict hl hq hp.named).imp ?_
    rintro c ⟨q, hcq, hq⟩
    rw [firsts_firsts_append, firsts_append_firsts, nil_append, firsts_firsts] at hq
    rw [Listing.hops_eq]
    exact ⟨q, hcq, hq⟩
  case along n m fs us ty ty' table p cs hp hc hn =>
    refine makes_composition hf <| (hp.makes_compose hk (firsts_firsts Test.text) fun f c hr =>
      hr.makes_chosen hk hf hc hn).imp fun ds hds => ?_
    simp only [Listing.hops_eq, flatMap_singleton]
    exact hds

theorem dedup_of_frozen {q : Query} (h : q.frozen = []) : q.dedup = .ok q := by
  simp only [Query.dedup, h, length_nil, Query.dedupFrom, ok_bind]
  cases q
  simp_all

-- A list is compiled to a query that gives it from every database, exactly if the joins of the query
-- have different names.
theorem compile_list_iff_apart {r : Setting} {t : Term} {l : Listing} (hk : r.key = none)
    (hf : r.switches.freezeAll = false) (h : AsksList r t l) (hl : l.Legible) :
    (compile r t).Makes fun q => q.frozen = [] ∧
      ((∀ db : Database, db.Keyed → q.toBody.rows db = some (l.answers db)) ↔ l.Apart) := by
  refine makes_modify.bind fun _ _ => (h.makes_compileTerm hk hf).bind fun c hc =>
    hc.makes_asQuery.bind fun q hq => ?_
  have hq' := And.intro hq.frozen (Listing.rows_iff_apart hl h.named hq.toLists)
  split
  case isTrue  => exact makes_ofExcept (dedup_of_frozen hq.frozen) hq'
  case isFalse => exact makes_pure hq'

theorem underscored_eq {name column : String}
    (h : name.toList.map (fun c => if c = ' ' then '_' else c) = column.toList) :
    column = underscored name := by
  rw [← String.toList_inj, underscored, String.toList_map, ← h]

-- People live at an address, which is at a place in town, and they may live at a firm: both the town and
-- the firm are joined as `person_lives_at`.
namespace Lodging

def objectType (n : Nat) (name : String) : Term :=
  .kind { serial := n, id := .given name, cls := .objectType, name, sort := .objectType }
    none none none none

def element (n : Nat) (cls : KindClass) (name : String) (d c : Term) : Term :=
  .kind { serial := n, id := .given name, cls, name, sort := cls.sort } none (some d) (some c) none

def design (n : Nat) (name : String) (stored : List Term) : Term :=
  .kind { serial := n, id := .given name, cls := .datasetDesign, name, sort := .datasetDesign }
    none none none (some (.app (n + 1) .product stored none))

def person : Term := objectType 1 "person"
def address : Term := objectType 2 "address"
def town : Term := objectType 3 "town"
def firm : Term := objectType 4 "firm"
def names : Term := objectType 5 "names"

def lives : Term := element 6 .objectTypeRelation "lives" person address
def at' : Term := element 7 .objectTypeRelation "at" address town
def livesAt : Term := element 8 .objectTypeRelation "lives at" person firm
def townName : Term := element 9 .variable "town name" town names
def firmName : Term := element 10 .variable "firm name" firm names
def lodging : Term := element 11 .variable "lives_at" person names

def setting : Setting where
  designs := [design 12 "person" [lives, lodging], design 14 "address" [at'],
    design 16 "town" [townName], design 18 "firm" [firmName]]

def term : Term :=
  .app 20 .product [.app 21 .composition [townName, at', lives] none,
    .app 22 .composition [firmName, livesAt] none] none

def listing : Listing where
  table      := "person"
  outputs    := [⟨[⟨"at", "town"⟩, ⟨"lives", "address"⟩], "town_name"⟩, ⟨[⟨"lives_at", "firm"⟩], "firm_name"⟩]
  conditions := []

theorem reads_lives : Reads setting "person" lives "lives" :=
  .ofRelation rfl rfl (underscored_eq rfl) ⟨⟨_, rfl, rfl⟩, rfl, rfl⟩

theorem reads_at : Reads setting "address" at' "at" :=
  .ofRelation rfl rfl (underscored_eq rfl) ⟨⟨_, rfl, rfl⟩, rfl, rfl⟩

theorem reads_livesAt : Reads setting "person" livesAt "lives_at" :=
  .ofRelation rfl rfl (underscored_eq rfl) ⟨⟨_, rfl, rfl⟩, rfl, rfl⟩

theorem reads_townName : Reads setting "town" townName "town_name" :=
  .ofVariable (n := "names") rfl rfl rfl (by decide) rfl ⟨⟨_, rfl, rfl⟩, rfl, rfl⟩ (underscored_eq rfl)

theorem reads_firmName : Reads setting "firm" firmName "firm_name" :=
  .ofVariable (n := "names") rfl rfl rfl (by decide) rfl ⟨⟨_, rfl, rfl⟩, rfl, rfl⟩ (underscored_eq rfl)

theorem leadsTo {n : Nat} {name table : String} {d c : Term} (h : c.name = .ok table) :
    LeadsTo table (element n .objectTypeRelation name d c) :=
  ⟨_, _, _, _, _, rfl, rfl, h⟩

theorem asksList : AsksList setting term listing :=
  .all <| .product (by decide) <|
    .cons ⟨_, .cons reads_townName (leadsTo rfl) <| .cons reads_at (leadsTo rfl) <| .single reads_lives,
      .inr ⟨_, _, rfl⟩⟩ <|
    .cons ⟨_, .cons reads_firmName (leadsTo rfl) <| .single reads_livesAt, .inr ⟨_, _, rfl⟩⟩ .nil

theorem legible : listing.Legible where
  loops := by
    rintro k ks ⟨p, hp, h⟩ hl
    have hk : ¬k.isLoop (nameAfter "person" ks) := by
      simp only [Listing.routes, listing, map_nil, nil_append, mem_cons,
        not_mem_nil, or_false] at hp
      rcases hp with rfl | rfl
      all_goals simp only [suffix_cons_iff, suffix_nil, List.cons.injEq, reduceCtorEq, or_false] at h
      · rcases h with ⟨rfl, rfl⟩ | ⟨rfl, rfl⟩ <;> decide
      · obtain ⟨rfl, rfl⟩ := h
        decide
    exact absurd hl hk
  hops  := by decide
  tests := by decide

theorem not_apart : ¬listing.Apart := by
  unfold Listing.Apart
  decide

theorem not_listed_from_every_database : (compile setting term).Makes fun q => q.frozen = [] ∧
    ¬∀ db : Database, db.Keyed → q.toBody.rows db = some (listing.answers db) :=
  (compile_list_iff_apart rfl rfl asksList legible).imp fun _ ⟨hf, h⟩ => ⟨hf, h.not.mpr not_apart⟩

end Lodging
end Sql
end Inquiry
