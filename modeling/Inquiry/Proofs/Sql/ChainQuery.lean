import Mathlib
import Inquiry.Proofs.Sql.Chains
import Inquiry.Proofs.Sql.ListTerm

/-!
Queries that follow a chain. A composition of kinds is compiled to the query that follows the trail
of its chain; where compositions are nested, the inner ones are put together from their own trails.
Main statement: the text of the query depends on the chain alone.
-/

open scoped List
open Inquiry.SessionM

namespace Inquiry

open List

namespace Sql

theorem addFirst_of_mem {κ : Type} [DecidableEq κ] (key : α → κ) {seen : List α} {a b : α}
    (h : b ∈ seen) (hk : key b = key a) : addFirst key seen a = seen := by
  cases addFirst_cases key seen a
  case inl ha => exact ha.right
  case inr ha => exact absurd hk (ha.left b h)

theorem foldl_addFirst_map_firsts {κ : Type} [DecidableEq κ] (key : α → κ) {f : α → α}
    {as seen : List α} (hi : ∀ a ∈ as, ∀ b ∈ as, key a = key b → a = b) :
    ((firsts key as).map f).foldl (addFirst key) seen = (as.map f).foldl (addFirst key) seen := by
  induction as using List.reverseRecOn
  case nil => rfl
  case append_singleton as a ih =>
    have ih := ih fun a ha b hb => hi a (by simp [ha]) b (by simp [hb])
    rw [firsts_append, map_append, foldl_append, ← ih]
    simp only [foldl_cons, foldl_nil, map_cons, map_nil]
    cases addFirst_cases key (firsts key as) a
    case inr h => rw [h.right, map_append, foldl_append]; rfl
    case inl h =>
      obtain ⟨⟨b, hb, hk⟩, h⟩ := h
      have hm : b ∈ as := (mem_of_mem_foldl_addFirst key hb).resolve_left (by simp)
      have hba : b = a := hi b (by simp [hm]) a (by simp) hk
      obtain ⟨c, hc, hkc⟩ := exists_key_foldl_addFirst key seen
        (mem_map.mpr ⟨b, hb, congrArg f hba⟩)
      rw [h, addFirst_of_mem key hc hkc]

-- The join of a hop; its columns are different parts, so that each is renamed once.
structure Hop.JoinsOnce (h : Hop) (j : Join) : Prop extends h.Joins j where
  sides : (Cond.sides j.conds).Nodup

variable {c : Compiled} {h : KindHead} {ps : List Piece} {new old : String} {t : Term}

theorem Hop.JoinsOnce.renameAlias {h : Hop} {j : Join} (hj : h.JoinsOnce j)
    (hn : Text.replaceFirst old new h.name = (h.move old new).name) :
    ∃ j', j.renameAlias old new = .ok j' ∧ (h.move old new).JoinsOnce j' := by
  have ⟨p, p₁, p₂, hc⟩ := hj.conds
  have hp : p₁ ≠ p₂ := by simpa [hc, Cond.sides, Item.part] using hj.sides
  refine ⟨{ j with
    asName := (h.move old new).name
    conds  := [⟨p, .column p₁ (h.move old new).name (identifierColumn h.link.table) none,
      .column p₂ (h.move old new).base h.link.column none⟩] }, ?_,
    ⟨hj.table, rfl, p, p₁, p₂, rfl⟩, by simpa [Cond.sides, Item.part] using hp⟩
  simp [Join.renameAlias, Cond.renameTables, hc, Cond.sides, perMention, Item.part,
    Item.renameTable, hp, hp.symm, hn, Source.renameAlias, hj.asName, pure, Except.pure, move]

-- A query without conditions that follows a trail.
structure Body.Follows (τ : Trail) (b : Body) : Prop where
  source   : ∃ p, b.source = some ⟨p, τ.table, ""⟩
  domain   : ∃ i, Gives τ.domain i ∧ b.domain = [i]
  codomain : ∃ i, Gives τ.out i ∧ b.codomain = [i]
  joins    : Forall₂ Hop.JoinsOnce τ.hops b.joins
  wheres   : b.wheres = []
  groups   : b.groups = .by []
  distinct : b.distinct = false
  orderBy  : b.orderBy = none

structure Query.Follows (τ : Trail) (q : Query) : Prop extends q.toBody.Follows τ where
  frozen : q.frozen = []

def Trail.tidy (τ : Trail) : Trail :=
  { τ with hops := firsts Hop.key τ.hops }

namespace Body.Follows

variable {τ : Trail} {b : Body}

theorem addJoin {h : Hop} {j : Join} (hb : b.Follows τ) (hj : h.JoinsOnce j) :
    ∃ b', b.addJoin j = .ok b' ∧ b'.Follows { τ with hops := addFirst Hop.key τ.hops h } := by
  have ha : b.joins.anyM (fun k => k.alike j) = .ok (τ.hops.any fun k => k.key = h.key) :=
    anyM_eq_ok (hb.joins.imp fun _ _ hk => hk.toJoins.alike hj.toJoins)
  simp only [Body.addJoin, ha, ok_bind, addFirst]
  cases τ.hops.any fun k => k.key = h.key
  case true  => exact ⟨b, rfl, hb⟩
  case false => exact ⟨_, rfl, { hb with joins := rel_append hb.joins (.cons hj .nil) }⟩

theorem tidy (hb : b.Follows τ) : ∃ b', b.tidy = .ok b' ∧ b'.Follows τ.tidy := by
  have h₀ : Body.Follows { τ with hops := [] } { b with joins := [], wheres := [] } :=
    { hb with joins := .nil, wheres := rfl }
  have ⟨b', hj, h⟩ := foldlM_eq_ok (f := Body.addJoin) (g := addFirst Hop.key)
    (I := fun hs (b : Body) => b.Follows { τ with hops := hs }) (R := Hop.JoinsOnce)
    (fun _ _ _ _ hb hj => hb.addJoin hj) h₀ hb.joins
  exact ⟨b', by simp [Body.tidy, hj, hb.wheres, pure, Except.pure], h⟩

theorem makes_create (hb : b.Follows τ) : (Query.create b []).Makes (Query.Follows τ.tidy) := by
  have ⟨b', hb, hb'⟩ := hb.tidy
  exact Makes.ofExcept_bind hb <| makes_newPart.bind fun _ _ => makes_pure ⟨hb', rfl⟩

end Body.Follows

theorem makes_newPart_both {f : Nat → Nat → SessionM β} {Q : β → Prop}
    (h : ∀ p p', p ≠ p' → (f p p').Makes Q) : (newPart >>= fun p => newPart >>= f p).Makes Q := by
  intro s
  have hp (s : Session) : newPart.Gives s s.parts { s with parts := s.parts + 1 } :=
    gives_modifyGet.mpr rfl
  have ⟨b, s', hb, hq⟩ := h s.parts (s.parts + 1) (by omega) { s with parts := s.parts + 1 + 1 }
  exact ⟨b, s', (hp s).bind ((hp _).bind hb), hq⟩

theorem Gives.makes_bare_both {o o' : String × String} {i i' : Item} {f : Item → Item → SessionM β}
    {Q : β → Prop} (hi : Gives o i) (hi' : Gives o' i')
    (h : ∀ p p', p ≠ p' → (f (.column p o.1 o.2 none) (.column p' o'.1 o'.2 none)).Makes Q) :
    (i.bare >>= fun c => i'.bare >>= f c).Makes Q := by
  obtain ⟨_, rfl⟩ := hi
  obtain ⟨_, rfl⟩ := hi'
  simp only [Item.bare, bind_assoc, pure_bind]
  exact makes_newPart_both h

variable {l q : Query} {τ υ : Trail}

theorem renameTables_single_of {p : Nat} {o : String × String} {a : String} :
    renameTables old new [.column p o.1 o.2 (some a)]
      = .ok [.column p (Text.replaceFirst old new o.1) o.2 (some a)] := by
  simp [renameTables, perMention, Item.part, Item.renameTable]

theorem mapM_renameAlias {hs : List Hop} {js : List Join} (h : Forall₂ Hop.JoinsOnce hs js)
    (hn : ∀ h ∈ hs, Text.replaceFirst old new h.name = (h.move old new).name) :
    ∃ js', js.mapM (Join.renameAlias old new) = .ok js' ∧
      Forall₂ Hop.JoinsOnce (hs.map (Hop.move old new)) js' := by
  induction h
  case nil => exact ⟨[], rfl, .nil⟩
  case cons hj _ ih =>
    have ⟨hn, hns⟩ := forall_mem_cons.mp hn
    have ⟨j', hj, hj'⟩ := hj.renameAlias hn
    have ⟨js', hjs, hjs'⟩ := ih hns
    exact ⟨j' :: js', by simp [mapM_cons, hj, hjs, pure, Except.pure], .cons hj' hjs'⟩

theorem get_singleton (a : α) : get [a] 0 = pure a := rfl

theorem Query.Follows.makes_compose (hl : l.Follows τ) (hq : q.Follows υ)
    (hf : τ.table.isEmpty = false → τ.Fits υ) :
    (composeOne l q).Makes (Query.Follows (τ.compose υ).tidy) := by
  obtain ⟨p, hp⟩ := hl.source
  obtain ⟨cod, hc, hcod⟩ := hq.codomain
  obtain ⟨dom, hd, hdom⟩ := hl.domain
  obtain ⟨out, ⟨po, ho⟩, hout⟩ := hl.codomain
  have horder : (outerOrder l q).1 = none := by simp [outerOrder, hl.orderBy, hq.orderBy, isSet]
  unfold composeOne
  simp only [hp, hl.wheres, hq.wheres, hl.frozen, hq.frozen, append_nil]
  cases ht : τ.table.isEmpty <;> simp only [if_true, Bool.false_eq_true, if_false, pure_bind]
  case true =>
    rw [Trail.compose, if_pos ht]
    exact Body.Follows.makes_create
      ⟨hq.source, hq.domain, hl.codomain, hq.joins, rfl, rfl, rfl, horder⟩
  case false =>
    have hf := hf ht
    obtain ⟨js, hjs, houter⟩ := mapM_renameAlias hl.joins hf.names
    have hloop :
        (qualified υ.out.1 υ.out.2 == qualified τ.table (identifierColumn τ.table)) = false :=
      beq_false_of_ne hf.onward
    rw [hf.domain] at hd
    rw [Trail.compose, ht]
    simp only [Bool.false_eq_true, if_false, hcod, hdom, hout, ho, get_singleton, pure_bind,
      hf.permanent, renameTables_single_of]
    refine hc.makes_bare_both hd fun p₁ p₂ hne => ?_
    refine Makes.ofExcept_bind rfl <| Makes.ofExcept_bind text_column <|
      Makes.ofExcept_bind text_column ?_
    simp only [hloop, Bool.false_eq_true, if_false]
    refine Makes.ofExcept_bind rfl <| makes_joinCreate.bind ?_
    rintro j ⟨hjt, hja, pc, hjc⟩
    refine Makes.ofExcept_bind hjs <| Makes.ofExcept_bind rfl ?_
    have hh : Hop.JoinsOnce ⟨υ.out.1, υ.out.2, τ.table⟩ j :=
      ⟨⟨hjt, hja, pc, p₂, p₁, hjc⟩, by simp [hjc, Cond.sides, Item.part, hne.symm]⟩
    exact Body.Follows.makes_create ⟨hq.source, hq.domain, ⟨_, ⟨po, rfl⟩, rfl⟩,
      by simpa using rel_append hq.joins (.cons hh houter), rfl, rfl, rfl, horder⟩

theorem Trail.tidy_compose (hf : τ.table.isEmpty = false → τ.Fits υ) :
    (τ.tidy.compose υ.tidy).tidy = (τ.compose υ).tidy := by
  have ht : τ.tidy.table = τ.table := rfl
  simp only [compose, ht]
  split
  case isTrue => exact Trail.ext rfl rfl (firsts_firsts Hop.key) rfl
  case isFalse h =>
    refine Trail.ext rfl rfl ?_ rfl
    have hk := (hf (by simpa using h)).keys
    change firsts Hop.key (firsts Hop.key υ.hops ++ _ :: (firsts Hop.key τ.hops).map _) = _
    rw [firsts_firsts_append, firsts_append, foldl_cons, foldl_addFirst_map_firsts _ hk,
      ← foldl_cons, ← firsts_append]
    rfl

theorem Trail.Fits.tidy (h : τ.Fits υ) : τ.tidy.Fits υ.tidy where
  permanent := h.permanent
  domain    := h.domain
  onward    := h.onward
  names k hk := h.names k ((mem_firsts_iff Hop.key h.keys).mp hk)
  keys k hk k' hk' := h.keys k ((mem_firsts_iff Hop.key h.keys).mp hk) k'
    ((mem_firsts_iff Hop.key h.keys).mp hk')

def Compiled.Follows (ps : List Piece) (c : Compiled) : Prop :=
  ∃ q, c = .query q ∧ q.Follows (trail ps).tidy

theorem makes_composeTwo {d : Compiled} {qs : List Piece} (hc : c.Follows ps) (hd : d.Follows qs)
    (hu : Unbroken (ps ++ qs)) (hn : ∀ p ∈ ps ++ qs, p.Named) (hp : ps ≠ []) (hq : qs ≠ []) :
    (composeTwo c d).Makes (Compiled.Follows (ps ++ qs)) := by
  obtain ⟨l, rfl, hl⟩ := hc
  obtain ⟨q, rfl, hq'⟩ := hd
  have ⟨_, _, hdom⟩ := hl.domain
  have ⟨happ, hf⟩ := trail_append hu hn hp hq
  simp only [composeTwo, Compiled.asQuery, pure_bind, hdom, length_singleton, beq_self_eq_true,
    if_true]
  refine (hl.makes_compose hq' fun ht => (hf ht).tidy).map fun q hq => ⟨q, rfl, ?_⟩
  rwa [Trail.tidy_compose hf, ← happ] at hq

theorem makes_compose {cs : List Compiled} {pss : List (List Piece)} (hc : c.Follows ps)
    (h : Forall₂ Compiled.Follows pss cs) (hp : ps ≠ []) (hps : ∀ ps ∈ pss, ps ≠ [])
    (hu : Unbroken (ps ++ pss.flatten)) (hn : ∀ p ∈ ps ++ pss.flatten, p.Named) :
    (compose (c :: cs)).Makes (Compiled.Follows (ps ++ pss.flatten)) := by
  induction h generalizing c ps
  case nil => simpa [compose, composeReversed] using makes_pure hc
  case cons qs d pss cs hd _ ih =>
    obtain ⟨hq, hqs⟩ := forall_mem_cons.mp hps
    have hs : qs ++ pss.flatten <:+ ps ++ (qs ++ pss.flatten) := suffix_append _ _
    rw [compose_cons (by simp)]
    refine (ih hd hq hqs (hu.mono hs.isInfix) fun p hp => hn p (hs.subset hp)).bind fun d hd => ?_
    exact makes_composeTwo hc hd hu hn hp (by simp [hq])

def objectDomain? (t : Term) : Option String :=
  match t.domain? with
  | .ok (some (.kind h ..)) => if h.cls == .objectType then some h.name else none
  | _                       => none

-- What is read for a kind: a stored variable or relation, a number or mark for each object of a
-- type, or a constant.
def pieceOf (r : Setting) (t : Term) (h : KindHead) : Option Piece :=
  if h.cls == .variable then
    match (do (← t.codomain).name : Except Failure String) with
    | .error _ => none
    | .ok name =>
      if name == "1" then (objectDomain? t).map (.counted · "'*'")
      else if isCounting h.name then (objectDomain? t).map (.counted · "1")
      else some (.stored (tableOf r h.name) (Text.underscored h.name))
  else if h.cls.isRelation then
    some (.stored (tableOf r (Text.underscored h.name)) (Text.underscored h.name))
  else if h.cls == .constant then h.code.map fun c => .fixed (Text.underscored c)
  else none

-- The kinds of nested compositions in a row.
def chain (r : Setting) : Term → Option (List Piece)
  | .app _ .composition (t :: ts) _ => return (← chain r t) ++ (← chainAll ts)
  | t@(.kind h ..) => (pieceOf r t h).map ([·])
  | _ => none
where
  chainAll : List Term → Option (List Piece)
    | []      => some []
    | t :: ts => return (← chain r t) ++ (← chainAll ts)

variable {r : Setting}

theorem makes_storedPiece {table column dir : String} :
    (storedColumn table column "" none dir).Makes (Query.Follows (trail [.stored table column]).tidy) := by
  refine makes_item.bind fun dom hd => makes_item.bind fun cod hc => ?_
  refine makes_newPart.bind fun p _ => Body.Follows.makes_create ?_
  exact ⟨⟨p, rfl⟩, ⟨dom, hd, rfl⟩, ⟨cod, hc, rfl⟩, .nil, rfl, rfl, rfl, rfl⟩

theorem makes_countedPiece {table value : String} (h : objectDomain? t = some table) :
    (compileImmediate r t value false).Makes
      (Query.Follows (trail [.counted table value]).tidy) := by
  unfold objectDomain? at h
  split at h
  case h_2 => simp at h
  case h_1 k _ _ _ _ hd =>
    obtain ⟨hk, ht⟩ := Option.ite_none_right_eq_some.mp h
    cases ht
    unfold compileImmediate
    refine Makes.ofExcept_bind hd ?_
    simp only [hk, if_true, Bool.false_eq_true, if_false, pure_bind]
    refine makes_item.bind fun dom hd => makes_newPart.bind fun p _ => ?_
    refine makes_item.bind fun cod hc => Body.Follows.makes_create ?_
    exact ⟨⟨p, rfl⟩, ⟨dom, hd, rfl⟩, ⟨cod, hc, rfl⟩, .nil, rfl, rfl, rfl, rfl⟩

theorem makes_fixedPiece {code : String} (hc : h.code = some code) :
    (compileConstant h).Makes (Query.Follows (trail [.fixed (Text.underscored code)]).tidy) := by
  simp only [compileConstant, hc]
  refine makes_item.bind fun dom hd => makes_item.bind fun cod hc => ?_
  refine makes_newPart.bind fun p _ => Body.Follows.makes_create ?_
  exact ⟨⟨p, rfl⟩, ⟨dom, hd, rfl⟩, ⟨cod, hc, rfl⟩, .nil, rfl, rfl, rfl, rfl⟩

theorem makes_compileVariable {p : Piece} (hk : r.key = none) (hv : h.cls == .variable)
    (hp : pieceOf r t h = some p) :
    (compileVariable r t h).Makes (Query.Follows (trail [p]).tidy) := by
  simp only [pieceOf, hv, if_true] at hp
  simp only [compileVariable, hk, Option.any_none]
  split at hp
  case h_1 => simp at hp
  case h_2 name hname =>
    refine Makes.ofExcept_bind hname ?_
    split at hp
    case isTrue h1 =>
      obtain ⟨table, ht, rfl⟩ := Option.map_eq_some_iff.mp hp
      simpa only [h1, if_true] using makes_countedPiece ht
    case isFalse h1 =>
      simp only [h1, Bool.false_eq_true, if_false]
      split at hp
      case isTrue h2 =>
        obtain ⟨table, ht, rfl⟩ := Option.map_eq_some_iff.mp hp
        simpa only [h2, if_true] using makes_countedPiece ht
      case isFalse h2 =>
        cases hp
        simpa only [h2, Bool.false_eq_true, if_false] using makes_storedPiece

theorem makes_compileKind {p : Piece} (hk : r.key = none) (hp : pieceOf r t h = some p) :
    (compileKind r t h).Makes (Compiled.Follows [p]) := by
  unfold compileKind
  by_cases hv : h.cls == .variable
  case pos =>
    rw [if_pos hv]
    exact (makes_compileVariable hk hv hp).map fun q hq => ⟨q, rfl, hq⟩
  case neg =>
    simp only [pieceOf, hv, Bool.false_eq_true, if_false] at hp ⊢
    split at hp
    case isTrue hr =>
      cases hp
      rw [if_pos hr]
      exact makes_storedPiece.map fun q hq => ⟨q, rfl, hq⟩
    case isFalse hr =>
      obtain ⟨hc, hp⟩ := Option.ite_none_right_eq_some.mp hp
      obtain ⟨code, hcode, rfl⟩ := Option.map_eq_some_iff.mp hp
      rw [if_neg hr, if_pos hc]
      exact (makes_fixedPiece hcode).map fun q hq => ⟨q, rfl, hq⟩

theorem Compiled.Follows.freezeGrouped_eq {sw : Switches} (hc : c.Follows ps)
    (hf : sw.freezeAll = false) : freezeGrouped sw c = pure c := by
  obtain ⟨q, rfl, hq⟩ := hc
  exact freezeGrouped_query hf hq.groups hq.distinct

theorem mapM_freezeGrouped_of_follows {cs : List Compiled} {pss : List (List Piece)} {sw : Switches}
    (hf : sw.freezeAll = false) (h : Forall₂ Compiled.Follows pss cs) :
    cs.mapM (freezeGrouped sw) = pure cs := by
  induction h
  case nil => rfl
  case cons hc _ ih => simp [mapM_cons, hc.freezeGrouped_eq hf, ih]

theorem chainAll_cons {ts : List Term} (h : chain.chainAll r (t :: ts) = some ps) :
    ∃ qs rs, chain r t = some qs ∧ chain.chainAll r ts = some rs ∧ ps = qs ++ rs := by
  simp only [chain.chainAll, Option.bind_eq_bind, Option.bind_eq_some_iff, Option.pure_def,
    Option.some.injEq] at h
  have ⟨qs, hqs, rs, hrs, he⟩ := h
  exact ⟨qs, rs, hqs, hrs, he.symm⟩

mutual

-- The query of a term follows its chain, whatever is composed first.
theorem follows_compileTerm (hf : r.switches.freezeAll = false) (hk : r.key = none) : (t : Term) →
    {ps : List Piece} → chain r t = some ps → Unbroken ps → (∀ p ∈ ps, p.Named) →
    ps ≠ [] ∧ (compileTerm r t).Makes (Compiled.Follows ps)
  | .app _ .composition (t :: ts) _, ps, h, hu, hn => by
    have ⟨pss, hpss, hl, hne, hts⟩ := follows_compileAll hf hk (t :: ts) h hu hn
    subst hpss
    cases pss with
    | nil => simp at hl
    | cons qs pss =>
      have ⟨hq, hqs⟩ := forall_mem_cons.mp hne
      refine ⟨by simp [hq], hts.bind fun cs hcs => ?_⟩
      rw [mapM_freezeGrouped_of_follows hf hcs, pure_bind]
      cases hcs
      case cons hc hcs => exact makes_compose hc hcs hq hqs hu hn
  | .kind .., ps, h, _, _ => by
    obtain ⟨p, hp, rfl⟩ := Option.map_eq_some_iff.mp h
    exact ⟨by simp, makes_compileKind hk hp⟩

theorem follows_compileAll (hf : r.switches.freezeAll = false) (hk : r.key = none) :
    (ts : List Term) → {ps : List Piece} → chain.chainAll r ts = some ps → Unbroken ps →
    (∀ p ∈ ps, p.Named) → ∃ pss, pss.flatten = ps ∧ pss.length = ts.length ∧ (∀ ps ∈ pss, ps ≠ []) ∧
      (compileTerm.compileAll r ts).Makes (Forall₂ Compiled.Follows pss)
  | [], ps, h, _, _ => by
    cases h
    exact ⟨[], rfl, rfl, by simp, makes_pure .nil⟩
  | t :: ts, ps, h, hu, hn => by
    obtain ⟨qs, rs, hqs, hrs, rfl⟩ := chainAll_cons h
    have hq : qs <+: qs ++ rs := prefix_append _ _
    have hr : rs <:+ qs ++ rs := suffix_append _ _
    have ⟨hne, ht⟩ := follows_compileTerm hf hk t hqs (hu.mono hq.isInfix) fun p hp =>
      hn p (hq.subset hp)
    have ⟨pss, hpss, hl, hnes, hts⟩ :=
      follows_compileAll hf hk ts hrs (hu.mono hr.isInfix) fun p hp => hn p (hr.subset hp)
    refine ⟨qs :: pss, by simp [hpss], by simp [hl], forall_mem_cons.mpr ⟨hne, hnes⟩, ?_⟩
    exact ht.bind fun c hc => hts.bind fun cs hcs => makes_pure (.cons hc hcs)

end

def Hop.text (h : Hop) : String :=
  let joined := qualified h.name (identifierColumn h.link.table)
  "\nJOIN " ++ Source.text ⟨0, h.link.table, h.name⟩ ++ " ON " ++
    ("(" ++ joined ++ " = " ++ qualified h.base h.link.column ++ ")")

def Trail.text (τ : Trail) : String :=
  "SELECT " ++ joinTexts ", " [qualified τ.domain.1 τ.domain.2, qualified τ.out.1 τ.out.2] ++
    (if τ.table.isEmpty then "" else "\nFROM " ++ τ.table) ++ String.join (τ.hops.map Hop.text)

theorem Hop.Joins.text {h : Hop} {j : Join} (hj : h.Joins j) :
    (return "\nJOIN " ++ (← j.text) : Except Failure String) = .ok h.text := by
  have ⟨_, _, _, hc⟩ := hj.conds
  have hs : j.toSource.text = Source.text ⟨0, h.link.table, h.name⟩ := by
    simp only [Source.text, hj.table, hj.asName]
  simp [Join.text, Join.condsText, hc, hs, Cond.text, text_column, Hop.text, pure, Except.pure,
    String.append_assoc]

namespace Body.Follows

variable {b : Body}

theorem columnsText (hb : b.Follows τ) : b.columnsText
    = .ok (joinTexts ", " [qualified τ.domain.1 τ.domain.2, qualified τ.out.1 τ.out.2]) := by
  have ⟨_, hd, hdom⟩ := hb.domain
  have ⟨_, hc, hcod⟩ := hb.codomain
  simp [Body.columnsText, Body.items, hdom, hcod, hd.text, hc.text, pure, Except.pure]

theorem joinsText (hb : b.Follows τ) : b.joinsText = .ok (String.join (τ.hops.map Hop.text)) := by
  have h : b.joins.mapM (fun j => (return "\nJOIN " ++ (← j.text) : Except Failure String))
      = .ok (τ.hops.map Hop.text) := by
    refine mapM_eq_ok.mpr (forall₂_map_right_iff.mpr ?_)
    exact hb.joins.flip.imp fun _ _ hj => hj.toJoins.text
  simp only [Body.joinsText, h, ok_bind]
  rfl

theorem text (hb : b.Follows τ) : b.text = .ok (τ.text ++ "\n") := by
  have ⟨_, hs⟩ := hb.source
  simp [Body.text, hb.columnsText, hb.joinsText, Body.wheresText, hb.wheres, Body.groupsText,
    hb.groups, Grouping.columns, hs, hb.orderBy, Source.text, Body.distinctText, hb.distinct,
    Trail.text, pure, Except.pure, String.append_assoc]

theorem statement (d : Dialect) (hb : b.Follows τ) :
    b.statement d none = .ok (τ.text ++ "\n\n") := by
  have ⟨_, hs⟩ := hb.source
  simp [Body.statement, hb.columnsText, hb.joinsText, Body.wheresText, hb.wheres, Body.groupsText,
    hb.groups, Grouping.columns, hs, hb.orderBy, Source.text, Body.distinctText, hb.distinct,
    Trail.text, pure, Except.pure, String.append_assoc]

end Body.Follows

def chainText (ps : List Piece) : String :=
  (trail ps).tidy.text ++ "\n"

def chainStatement (d : Dialect) (ps : List Piece) : String :=
  let statement := (trail ps).tidy.text ++ "\n\n"
  if d == .tSql then String.ofList (Text.markNumbered "tmp".toList ['#'] statement.toList)
  else statement

/-- However a chain is grouped into compositions, its query is compiled, and the texts are those of
the chain. -/
theorem groupings_compile_alike {designs : List Term} {ps : List Piece} (hn : ∀ p ∈ ps, p.Named)
    (hu : Unbroken ps) : ∀ t, chain { designs } t = some ps → (compile { designs } t).Makes fun q =>
      q.text = .ok (chainText ps) ∧ ∀ d, q.statements d = .ok (chainStatement d ps) := by
  intro t h
  have ⟨_, hm⟩ := follows_compileTerm rfl rfl t h hu hn
  refine makes_modify.bind fun _ _ => hm.bind ?_
  rintro _ ⟨q, rfl, hq⟩
  refine makes_ofExcept (dedup_of_frozen hq.frozen) ⟨?_, fun d => ?_⟩
  · simp [Query.text, hq.frozen, hq.text, chainText]
  · simp only [Query.statements, hq.frozen, hq.statement, chainStatement]
    split <;> simp_all

namespace Offices

open Lodging (objectType element design person address town firm names at' firmName)

def one : Term := objectType 30 "1"
def numbers : Term := objectType 31 "numbers"

def seat : Term := element 32 .objectTypeRelation "seat" firm address
def countTowns : Term := element 33 .variable "een(town)" town numbers
def everyPerson : Term := element 34 .variable "alle(person)" person one

def employer : Term :=
  .kind { serial := 35, id := .given "employer", cls := .constant, name := "employer"
          sort := .constant, code := some "7" } none (some one) (some firm) none

def composition (n : Nat) (ts : List Term) : Term :=
  .app n .composition ts none

def designs : List Term :=
  [design 36 "address" [at'], design 38 "firm" [seat, firmName]]

def pieces : List Piece :=
  [.counted "town" "1", .stored "address" "at", .stored "firm" "seat", .fixed "7"]

def townsAtOnce : Term :=
  composition 40 [countTowns, at', seat, employer]

def townsInParts : Term :=
  composition 41 [composition 42 [countTowns, at'], composition 43 [seat, employer]]

def townsText : String :=
  "SELECT '*', 1" ++
  "\nJOIN firm AS _'7' ON (_'7'.firm_id = '7')" ++
  "\nJOIN address AS _'7'_seat ON (_'7'_seat.address_id = _'7'.seat)" ++
  "\nJOIN town AS _'7'_seat_at ON (_'7'_seat_at.town_id = _'7'_seat.at)\n"

theorem towns_counted_alike : (∀ p ∈ pieces, p.Named) ∧ Unbroken pieces ∧
    ∀ t ∈ [townsAtOnce, townsInParts], chain { designs } t = some pieces ∧
      (compile { designs } t).Makes fun q => q.text = .ok townsText := by
  have hn : ∀ p ∈ pieces, p.Named := by decide +kernel
  have hu : Unbroken pieces := by decide +kernel
  have hc : ∀ t ∈ [townsAtOnce, townsInParts], chain { designs } t = some pieces := by
    decide +kernel
  have ht : chainText pieces = townsText := by decide +kernel
  refine ⟨hn, hu, fun t h => ⟨hc t h, ?_⟩⟩
  exact (groupings_compile_alike hn hu t (hc t h)).imp fun q hq => ht ▸ hq.left

def firmsAtOnce : Term :=
  composition 44 [firmName, employer, everyPerson]

def firmsInParts : Term :=
  composition 45 [composition 46 [firmName, employer], everyPerson]

def textOf (t : Term) : Option String :=
  ((compile { designs } t).runIn {}).1.toOption.bind fun q => q.text.toOption

-- A constant within a chain leads on to a table that is not joined if the constant is composed with
-- it first.
theorem inner_constant_loses_join : chain { designs } firmsAtOnce = chain { designs } firmsInParts ∧
    (∀ ps ∈ chain { designs } firmsAtOnce, ∀ p ∈ ps, p.Named) ∧
    textOf firmsAtOnce = some ("SELECT person.person_id, _'7'.firm_name\nFROM person" ++
      "\nJOIN firm AS _'7' ON (_'7'.firm_id = '7')\n") ∧
    textOf firmsInParts = some "SELECT person.person_id, _'7'.firm_name\nFROM person\n" := by
  decide +kernel

end Offices
end Sql
end Inquiry
