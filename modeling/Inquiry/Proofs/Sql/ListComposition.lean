import Mathlib
import Inquiry.Proofs.Sql.ListQuery

/-!
How queries for lists are put together. A column that is read behind a link adds a hop, and a list of
rows that meet some conditions adds its tests; in the end each join and each condition is there once.
-/

open scoped List

namespace Inquiry

theorem anyM_eq_ok {f : β → Except ε Bool} {g : α → Bool} {as : List α} {bs : List β}
    (h : List.Forall₂ (fun a b => f b = .ok (g a)) as bs) : bs.anyM f = .ok (as.any g) := by
  induction h
  case nil => rfl
  case cons a b _ _ hb _ ih =>
    simp only [List.anyM, hb, ok_bind, List.any_cons]
    cases g a
    · simpa using ih
    · rfl

theorem foldlM_eq_ok {f : β → δ → Except ε β} {g : α → γ → α} {I : α → β → Prop} {R : γ → δ → Prop}
    (hf : ∀ a b c d, I a b → R c d → ∃ b', f b d = .ok b' ∧ I (g a c) b') {a : α} {b : β}
    {cs : List γ} {ds : List δ} (h : I a b) (hr : List.Forall₂ R cs ds) :
    ∃ b', ds.foldlM f b = .ok b' ∧ I (cs.foldl g a) b' := by
  induction hr generalizing a b
  case nil => exact ⟨b, rfl, h⟩
  case cons c d _ _ hcd _ ih =>
    have ⟨b₁, hb, h₁⟩ := hf a b c d h hcd
    have ⟨b₂, hb₂, h₂⟩ := ih h₁
    exact ⟨b₂, by simp [List.foldlM_cons, hb, hb₂], h₂⟩

namespace Text

theorem replaceFirst_self (old s : String) : replaceFirst old old s = s := by
  have h (cs : List Char) : replaceFirstChars old.toList old.toList cs = cs := by
    induction cs
    case nil => cases h : old.toList <;> simp [replaceFirstChars]
    case cons c cs ih =>
      simp only [replaceFirstChars, ih]
      split
      case isTrue hp =>
        exact List.prefix_iff_eq_append.mp (List.isPrefixOf_iff_prefix.mp hp)
      case isFalse => rfl
  simp [replaceFirst, h]

theorem replaceFirst_whole {old : String} (new : String) (h : old.isEmpty = false) :
    replaceFirst old new old = new := by
  cases hc : old.toList
  case nil => simp_all
  case cons c cs => simp [replaceFirst, replaceFirstChars, hc]

end Text

namespace Sql

open SessionM

variable {table : String} {hs : List Hop} {ts : List Test} {outs : List (String × String)}
  {cs : List Compiled} {is : List Item} {p : Nat} {q : Query} {n old t : String}
  {o : String × String}

theorem text_column : (Item.column p t n none).text = .ok (qualified t n) := by
  simp [Item.text, qualified]

theorem Gives.text {i : Item} (h : Gives o i) : i.text = .ok (qualified o.1 o.2) := by
  have ⟨_, h⟩ := h
  simp [h, Item.text, qualified, aliasText]

theorem Hop.Joins.alike {h h' : Hop} {j j' : Join} (hj : h.Joins j) (hj' : h'.Joins j') :
    j.alike j' = .ok (h.key = h'.key) := by
  have ⟨_, _, _, hc⟩ := hj.conds
  have ⟨_, _, _, hc'⟩ := hj'.conds
  by_cases ht : h.link.table = h'.link.table
  case neg => simp [Join.alike, hj.table, hj'.table, ht, key, pure, Except.pure]
  case pos =>
    simp [Join.alike, hj.table, hj'.table, ht, hc, hc', key, Item.name, text_column, List.allM]
    by_cases hq : qualified h.base h.link.column = qualified h'.base h'.link.column <;> simp [hq]

theorem Test.Checks.text {t : Test} {c : Cond} (h : t.Checks c) : c.text = .ok t.text := by
  have ⟨⟨_, hl⟩, ⟨_, hr⟩⟩ := h
  simp [Cond.text, hl, hr, Item.text, Test.text, qualified, aliasText, pure, Except.pure]

namespace Body.Lists

variable {b : Body}

theorem addJoin {h : Hop} {j : Join} (hb : b.Lists table hs ts outs) (hj : h.Joins j) :
    ∃ b', b.addJoin j = .ok b' ∧ b'.Lists table (addFirst Hop.key hs h) ts outs := by
  have ha : b.joins.anyM (fun k => k.alike j) = .ok (hs.any fun k => k.key = h.key) :=
    anyM_eq_ok (hb.joins.imp fun _ _ hk => hk.alike hj)
  simp only [Body.addJoin, ha, ok_bind, addFirst]
  cases hs.any fun k => k.key = h.key
  case true  => exact ⟨b, rfl, hb⟩
  case false => exact ⟨_, rfl, { hb with joins := List.rel_append hb.joins (.cons hj .nil) }⟩

theorem addWhere {t : Test} {c : Cond} (hb : b.Lists table hs ts outs) (hc : t.Checks c) :
    ∃ b', b.addWhere c = .ok b' ∧ b'.Lists table hs (addFirst Test.text ts t) outs := by
  have ha : b.wheres.anyM (fun d => return (← d.text) == (← c.text))
      = .ok (ts.any fun u => u.text = t.text) :=
    anyM_eq_ok (hb.wheres.imp fun _ _ hd => by
      simp [hd.text, hc.text, beq_eq_decide, pure, Except.pure])
  simp only [Body.addWhere, ha, ok_bind, addFirst]
  cases ts.any fun u => u.text = t.text
  case true  => exact ⟨b, rfl, hb⟩
  case false => exact ⟨_, rfl, { hb with wheres := List.rel_append hb.wheres (.cons hc .nil) }⟩

theorem tidy (hb : b.Lists table hs ts outs) :
    ∃ b', b.tidy = .ok b' ∧ b'.Lists table (firsts Hop.key hs) (firsts Test.text ts) outs := by
  have h₀ : Body.Lists table [] [] outs { b with joins := [], wheres := [] } :=
    { hb with joins := .nil, wheres := .nil }
  have ⟨b₁, hj, h₁⟩ := foldlM_eq_ok (f := Body.addJoin) (g := addFirst Hop.key)
    (I := fun hs (b : Body) => b.Lists table hs [] outs) (R := Hop.Joins)
    (fun _ _ _ _ hb hj => hb.addJoin hj) h₀ hb.joins
  have ⟨b₂, hw, h₂⟩ := foldlM_eq_ok (f := Body.addWhere) (g := addFirst Test.text)
    (I := fun ts (b : Body) => b.Lists table (firsts Hop.key hs) ts outs) (R := Test.Checks)
    (fun _ _ _ _ hb hc => hb.addWhere hc) h₁ hb.wheres
  exact ⟨b₂, by simp [Body.tidy, hj, hw], h₂⟩

end Body.Lists

-- A query for a list that needs no temporary tables.
structure Query.Lists (table : String) (hs : List Hop) (ts : List Test)
    (outs : List (String × String)) (q : Query) : Prop extends
    q.toBody.Lists table hs ts outs where
  frozen : q.frozen = []

theorem makes_newPart : newPart.Makes fun _ => True :=
  makes_modifyGet fun _ => trivial

theorem makes_create {b : Body} {hs' : List Hop} {ts' : List Test} (hb : b.Lists table hs ts outs)
    (hh : firsts Hop.key hs = hs') (ht : firsts Test.text ts = ts') :
    (Query.create b []).Makes (Query.Lists table hs' ts' outs) := by
  have ⟨b', hb, hb'⟩ := hb.tidy
  refine Makes.ofExcept_bind hb <| makes_newPart.bind fun _ _ => makes_pure ?_
  exact hh ▸ ht ▸ ⟨hb', rfl⟩

theorem makes_item : (Item.create t n "").Makes (Gives (t, n)) :=
  makes_newPart.bind fun p _ => makes_pure ⟨p, rfl⟩

theorem Gives.makes_bare {i : Item} (h : Gives o i) :
    i.bare.Makes fun i => ∃ p, i = .column p o.1 o.2 none := by
  have ⟨_, h⟩ := h
  subst h
  exact makes_newPart.bind fun p _ => makes_pure ⟨p, rfl⟩

theorem makes_storedColumn {table column dir : String} :
    (storedColumn table column "" none dir).Makes (Query.Lists table [] [] [(table, column)]) := by
  refine makes_item.bind fun dom hd => makes_item.bind fun cod hc => makes_newPart.bind fun p _ => ?_
  exact makes_create ⟨⟨dom, hd, rfl⟩, .cons hc .nil, ⟨p, rfl⟩, .nil, .nil, rfl, rfl, rfl⟩ rfl rfl

theorem renameTables_single {c a : String} (new : String) (ht : t.isEmpty = false) :
    renameTables t new [.column p t c (some a)] = .ok [.column p new c (some a)] := by
  simp [renameTables, perMention, Item.part, Item.renameTable, Text.replaceFirst_whole new ht]

theorem Makes.get_bind {xs : List α} {i : Nat} {x : α} {f : α → SessionM β} {Q : β → Prop}
    (hx : xs[i]? = some x) (h : (f x).Makes Q) : (get xs i >>= f).Makes Q :=
  Makes.ofExcept_bind (Sequence.get_natCast hx) h

theorem makes_joinCreate {a : String} {lhs rhs : Item} : (Join.create t a [(lhs, rhs)]).Makes
    fun j => j.table = t ∧ j.asName = a ∧ ∃ p, j.conds = [⟨p, lhs, rhs⟩] := by
  simp only [Join.create, List.mapM_cons, List.mapM_nil, bind_assoc, pure_bind]
  exact makes_newPart.bind fun p _ => makes_newPart.bind fun _ _ => makes_pure ⟨rfl, rfl, p, rfl⟩

theorem Query.Lists.single (h : q.Lists table hs ts [o]) : ∃ i, Gives o i ∧ q.codomain = [i] := by
  have h := h.codomain
  generalize q.codomain = is at h
  cases h
  case cons i _ hi h =>
    cases h
    exact ⟨i, hi, rfl⟩

theorem makes_link {l : Query} {k : Link} {c base : String}
    (hl : l.Lists k.table [] [] [(k.table, c)]) (hq : q.Lists table hs ts [(base, k.column)])
    (ht : k.table.isEmpty = false) (hn : isTemporary k.table = false) :
    (composeOne l q).Makes (Query.Lists table
      (firsts Hop.key (hs ++ if k.isLoop base then [] else [⟨base, k⟩])) (firsts Test.text ts)
      [(if k.isLoop base then base else base ++ "_" ++ k.column, c)]) := by
  have ⟨p, hp⟩ := hl.source
  have ⟨cod, hc, hcod⟩ := hq.single
  have ⟨dom, hd, hdom⟩ := hl.domain
  have ⟨out, ⟨po, ho⟩, hout⟩ := hl.single
  have hj : l.joins = [] := by simpa using hl.joins
  have hw : l.wheres = [] := by simpa using hl.wheres
  have horder : (outerOrder l q).1 = none := by simp [outerOrder, hl.orderBy, hq.orderBy, isSet]
  unfold composeOne
  simp only [hp, ht, Bool.false_eq_true, if_false, hj, hw, hout, ho, hl.frozen, hq.frozen,
    renameTables_single _ ht, List.mapM_nil, hn, pure_bind]
  refine Makes.get_bind (x := cod) (by simp [hcod]) (hc.makes_bare.bind ?_)
  rintro _ ⟨p₁, rfl⟩
  refine Makes.get_bind (x := dom) (by simp [hdom]) (hd.makes_bare.bind ?_)
  rintro _ ⟨p₂, rfl⟩
  refine Makes.ofExcept_bind rfl <| Makes.ofExcept_bind text_column <|
    Makes.ofExcept_bind text_column ?_
  have hk : (qualified base k.column == qualified k.table (identifierColumn k.table))
      = k.isLoop base := rfl
  simp only [hk]
  cases k.isLoop base <;> simp only [Bool.false_eq_true, if_true, if_false]
  case true =>
    refine Makes.ofExcept_bind rfl <| Makes.ofExcept_bind rfl ?_
    exact makes_create ⟨hq.domain, .cons ⟨po, rfl⟩ .nil, hq.source, by simpa using hq.joins,
      by simpa using hq.wheres, rfl, rfl, horder⟩ rfl rfl
  case false =>
    refine Makes.ofExcept_bind rfl <| makes_joinCreate.bind ?_
    rintro j ⟨hjt, hja, pc, hjc⟩
    refine Makes.ofExcept_bind rfl <| Makes.ofExcept_bind rfl ?_
    have hh : Hop.Joins ⟨base, k⟩ j := ⟨hjt, hja, pc, p₂, p₁, hjc⟩
    exact makes_create ⟨hq.domain, .cons ⟨po, rfl⟩ .nil, hq.source,
      by simpa using List.rel_append hq.joins (.cons hh .nil), by simpa using hq.wheres, rfl, rfl,
      horder⟩ rfl rfl

theorem perMention_self {a : Option String} (mentions : List Nat) :
    perMention mentions (Item.renameTable old old) (.column p t n a)
      = .ok (.column p t n a) := by
  simp only [perMention]
  induction List.count (Item.column p t n a).part mentions
  case zero => rfl
  case succ k ih => simpa [List.replicate_succ, Item.renameTable, Text.replaceFirst_self] using ih

theorem renameTables_self (h : List.Forall₂ Gives outs is) : renameTables old old is = .ok is := by
  refine mapM_eq_ok.mpr (List.forall₂_same.mpr fun i hi => ?_)
  have ⟨_, _, _, hi⟩ := exists_of_mem_right h hi
  exact hi ▸ perMention_self _

theorem Hop.Joins.renameAlias_self {h : Hop} {j : Join} (hj : h.Joins j) :
    j.renameAlias old old = .ok j := by
  have ⟨_, _, _, hc⟩ := hj.conds
  simp [Join.renameAlias, Cond.renameTables, hc, perMention_self, Source.renameAlias,
    Text.replaceFirst_self, pure, Except.pure]
  cases j
  simp_all

theorem makes_restrict {l : Query} {hs' : List Hop} {ts' : List Test}
    (hl : l.Lists table hs' ts' outs) (hq : q.Lists table hs ts [(table, identifierColumn table)])
    (ht : table.isEmpty = false) : (composeOne l q).Makes
      (Query.Lists table (firsts Hop.key (hs ++ hs')) (firsts Test.text (ts' ++ ts)) outs) := by
  have ⟨p, hp⟩ := hl.source
  have ⟨cod, hc, hcod⟩ := hq.single
  have ⟨dom, hd, hdom⟩ := hl.domain
  have hj : l.joins.mapM (Join.renameAlias table table) = .ok l.joins :=
    mapM_eq_ok.mpr <| List.forall₂_same.mpr fun j hj =>
      have ⟨_, _, hj⟩ := exists_of_mem_right hl.joins hj
      hj.renameAlias_self
  have horder : (outerOrder l q).1 = none := by simp [outerOrder, hl.orderBy, hq.orderBy, isSet]
  unfold composeOne
  simp only [hp, ht, Bool.false_eq_true, if_false, hl.frozen, hq.frozen, pure_bind]
  refine Makes.get_bind (x := cod) (by simp [hcod]) (hc.makes_bare.bind ?_)
  rintro _ ⟨p₁, rfl⟩
  refine Makes.get_bind (x := dom) (by simp [hdom]) (hd.makes_bare.bind ?_)
  rintro _ ⟨p₂, rfl⟩
  refine Makes.ofExcept_bind rfl <| Makes.ofExcept_bind text_column <|
    Makes.ofExcept_bind text_column ?_
  simp only [beq_self_eq_true, if_true]
  refine Makes.ofExcept_bind hj <| Makes.ofExcept_bind (renameTables_self hl.codomain) ?_
  exact makes_create ⟨hq.domain, hl.codomain, hq.source, by simpa using List.rel_append hq.joins hl.joins,
    List.rel_append hl.wheres hq.wheres, rfl, rfl, horder⟩ rfl rfl

def Compiled.Lists (table : String) (hs : List Hop) (ts : List Test) (outs : List (String × String))
    (c : Compiled) : Prop :=
  ∃ q, c = .query q ∧ q.Lists table hs ts outs

theorem freezeGrouped_query {sw : Switches} (hf : sw.freezeAll = false) (hg : q.groups = .by [])
    (hd : q.distinct = false) : freezeGrouped sw (.query q) = pure (.query q) := by
  simp [freezeGrouped, hf, hg, hd, Grouping.groupsRows]

namespace Compiled.Lists

variable {c : Compiled} {sw : Switches}

theorem makes_asQuery (h : c.Lists table hs ts outs) :
    c.asQuery.Makes (Query.Lists table hs ts outs) := by
  have ⟨q, hc, hq⟩ := h
  exact hc ▸ makes_pure hq

theorem freezeGrouped_eq (h : c.Lists table hs ts outs) (hf : sw.freezeAll = false) :
    freezeGrouped sw c = pure c := by
  have ⟨q, hc, hq⟩ := h
  exact hc ▸ freezeGrouped_query hf hq.groups hq.distinct

theorem makes_composeTwo {c' : Compiled} {hs' : List Hop} {ts' : List Test}
    {outs' : List (String × String)} {table' : String} {P : Query → Prop}
    (hc : c.Lists table hs ts outs) (hc' : c'.Lists table' hs' ts' outs')
    (h : ∀ l q, l.Lists table hs ts outs → q.Lists table' hs' ts' outs' → (composeOne l q).Makes P) :
    (composeTwo c c').Makes fun c => ∃ q, c = .query q ∧ P q := by
  have ⟨l, hc, hl⟩ := hc
  have ⟨q, hc', hq⟩ := hc'
  have ⟨_, _, hd⟩ := hl.domain
  subst hc hc'
  simp only [composeTwo, Compiled.asQuery, pure_bind, hd, List.length_singleton, beq_self_eq_true,
    if_true]
  exact (h l q hl hq).map fun q hq => ⟨q, rfl, hq⟩

end Compiled.Lists

theorem foldLeft_concat (c d : Compiled) (cs : List Compiled) : composeReversed.foldLeft c (cs ++ [d])
    = composeReversed.foldLeft c cs >>= composeTwo d := by
  induction cs generalizing c
  case nil          => simp [composeReversed.foldLeft]
  case cons c' cs ih => simp [composeReversed.foldLeft, ih]

theorem composeReversed_cons (c : Compiled) (cs : List Compiled) :
    composeReversed (c :: cs) = composeReversed.foldLeft c cs := by
  cases cs <;> simp [composeReversed, composeReversed.foldLeft]

theorem compose_cons {c : Compiled} (h : cs ≠ []) :
    compose (c :: cs) = compose cs >>= composeTwo c := by
  obtain ⟨d, ds, hd⟩ : ∃ d ds, cs.reverse = d :: ds := by
    cases hd : cs.reverse
    case nil       => simp_all
    case cons d ds => exact ⟨d, ds, rfl⟩
  simp [compose, hd, composeReversed_cons, foldLeft_concat]

theorem mapM_freezeGrouped {sw : Switches} (hf : sw.freezeAll = false)
    (h : ∀ c ∈ cs, ∃ table hs ts outs, c.Lists table hs ts outs) :
    cs.mapM (freezeGrouped sw) = pure cs := by
  induction cs
  case nil => rfl
  case cons c cs ih =>
    have ⟨⟨_, _, _, _, hc⟩, hcs⟩ := List.forall_mem_cons.mp h
    simp [List.mapM_cons, hc.freezeGrouped_eq hf, ih hcs]

theorem exists_queries {R : α → Query → Prop} {as : List α}
    (h : List.Forall₂ (fun a c => ∃ q, c = .query q ∧ R a q) as cs) :
    ∃ qs, cs = qs.map .query ∧ List.Forall₂ R as qs := by
  induction h
  case nil => exact ⟨[], rfl, .nil⟩
  case cons hc _ ih =>
    have ⟨q, hc, hq⟩ := hc
    have ⟨qs, hcs, hqs⟩ := ih
    exact ⟨q :: qs, by simp [hc, hcs], .cons hq hqs⟩

theorem mapM_asQuery (qs : List Query) : (qs.map Compiled.query).mapM Compiled.asQuery = pure qs := by
  induction qs
  case nil          => rfl
  case cons q qs ih => simp [List.mapM_cons, Compiled.asQuery, ih]

theorem joinDomains_eq {new : List (String × List (Item × Item))}
    (hq : ∃ i, Gives (table, identifierColumn table) i ∧ q.domain = [i])
    (hi : ∃ i, Gives (table, identifierColumn table) i ∧ is = [i]) :
    joinDomains is new q = pure new := by
  obtain ⟨_, ⟨_, rfl⟩, hq⟩ := hq
  obtain ⟨_, ⟨_, rfl⟩, rfl⟩ := hi
  simp [joinDomains, hq, ofExcept, Item.table]

-- Queries for lists, by their hops and columns, that all start from one table.
def Fans (table : String) : List (List Hop × List (String × String)) → List Query → Prop :=
  List.Forall₂ fun a q => q.Lists table a.1 [] a.2

namespace Fans

variable {as : List (List Hop × List (String × String))} {qs : List Query}

theorem forall_domain (h : Fans table as qs) :
    ∀ q ∈ qs, ∃ i, Gives (table, identifierColumn table) i ∧ q.domain = [i] := by
  intro q hq
  have ⟨_, _, hq⟩ := exists_of_mem_right h hq
  exact hq.domain

theorem flatMap_eq_nil {f : Query → List β} (h : Fans table as qs)
    (hf : ∀ hs outs (q : Query), q.Lists table hs [] outs → f q = []) : qs.flatMap f = [] := by
  refine List.flatMap_eq_nil_iff.mpr fun q hq => ?_
  have ⟨_, _, hq⟩ := exists_of_mem_right h hq
  exact hf _ _ q hq

theorem frozen (h : Fans table as qs) : qs.flatMap (·.frozen) = [] :=
  h.flatMap_eq_nil fun _ _ _ hq => hq.frozen

theorem wheres (h : Fans table as qs) : qs.flatMap (·.wheres) = [] :=
  h.flatMap_eq_nil fun _ _ _ hq => by simpa using hq.wheres

theorem joins (h : Fans table as qs) :
    List.Forall₂ Hop.Joins (as.flatMap (·.1)) (qs.flatMap (·.joins)) :=
  List.rel_flatMap h fun _ _ hq => hq.joins

theorem codomain (h : Fans table as qs) :
    List.Forall₂ Gives (as.flatMap (·.2)) (qs.flatMap (·.codomain)) :=
  List.rel_flatMap h fun _ _ hq => hq.codomain

theorem lastOrder (h : Fans table as qs) : (lastOrder qs).1 = none := by
  have ho : ∀ q ∈ qs, q.orderBy = none := fun q hq =>
    have ⟨_, _, hq⟩ := exists_of_mem_right h hq
    hq.orderBy
  have hl : ∀ acc : Option String × String, acc.1 = none → (qs.foldl (fun acc q =>
      if q.orderBy.isSome then (q.orderBy, q.orderDir) else acc) acc).1 = none := by
    clear h
    induction qs
    case nil => exact fun _ h => h
    case cons q qs ih =>
      have ⟨hq, hqs⟩ := List.forall_mem_cons.mp ho
      exact fun acc h => by simpa [hq] using ih hqs acc h
  exact hl _ rfl

end Fans

variable {sw : Switches} {as : List (List Hop × List (String × String))} {cs : List Compiled}

theorem exists_fans (hf : sw.freezeAll = false)
    (h : List.Forall₂ (fun a c => c.Lists table a.1 [] a.2) as cs) :
    ∃ qs, cs = qs.map .query ∧ Fans table as qs ∧
      (cs.mapM (freezeGrouped sw) >>= fun cs => cs.mapM Compiled.asQuery) = pure qs := by
  have ⟨qs, hcs, hqs⟩ := exists_queries h
  have hl : ∀ c ∈ cs, ∃ table hs ts outs, c.Lists table hs ts outs := fun c hc =>
    have ⟨_, _, hc⟩ := exists_of_mem_right h hc
    ⟨_, _, _, _, hc⟩
  exact ⟨qs, hcs, hqs, by rw [mapM_freezeGrouped hf hl, pure_bind, hcs, mapM_asQuery]⟩

theorem foldlM_joinDomains {qs : List Query}
    (hi : ∃ i, Gives (table, identifierColumn table) i ∧ is = [i])
    (hq : ∀ q ∈ qs, ∃ i, Gives (table, identifierColumn table) i ∧ q.domain = [i]) :
    qs.foldlM (joinDomains is) [] = pure [] := by
  induction qs
  case nil => rfl
  case cons q qs ih =>
    have ⟨hq, hqs⟩ := List.forall_mem_cons.mp hq
    simp [List.foldlM_cons, joinDomains_eq hq hi, ih hqs]

theorem makes_compileProduct (hf : sw.freezeAll = false) (hn : as ≠ [])
    (h : List.Forall₂ (fun a c => c.Lists table a.1 [] a.2) as cs) : (compileProduct sw cs).Makes
      (Compiled.Lists table (firsts Hop.key (as.flatMap (·.1))) [] (as.flatMap (·.2))) := by
  have ⟨qs, hcs, hqs, hm⟩ := exists_fans hf h
  cases hqs
  case nil => exact absurd rfl hn
  case cons a q as qs hq hqs =>
    have hfan : Fans table (a :: as) (q :: qs) := .cons hq hqs
    have ho := hfan.lastOrder
    simp only [hcs, List.map_cons] at hm ⊢
    unfold compileProduct
    simp only [← bind_assoc, hm, pure_bind]
    refine Makes.get_bind (x := q) rfl ?_
    simp only [List.tail_cons, foldlM_joinDomains hq.domain (Fans.forall_domain hqs), pure_bind, List.mapM_nil,
      hfan.frozen, hfan.wheres]
    refine Makes.map ?_ fun q hq => ⟨q, rfl, hq⟩
    exact makes_create ⟨hq.domain, hfan.codomain, hq.source, hfan.joins, .nil, hq.groups, rfl, ho⟩ rfl rfl

theorem makes_copies (h : ∃ i, Gives o i ∧ is = [i]) :
    (Item.copies is).Makes fun is => ∃ i, Gives o i ∧ is = [i] := by
  obtain ⟨_, ⟨p, rfl⟩, rfl⟩ := h
  unfold Item.copies
  exact (makes_modifyGet (P := fun _ => True) fun _ => trivial).bind fun n _ =>
    makes_pure ⟨_, ⟨_, rfl⟩, rfl⟩

-- What the two sides of a condition give.
def conditionParts (table : String) (c : Route × String) :
    List (List Hop × List (String × String)) :=
  [(firsts Hop.key (hops table c.1.links), [(nameAfter table c.1.links, c.1.column)]),
    ([], [("", "'" ++ c.2 ++ "'")])]

theorem makes_pairConds {conds : List (Route × String)} {qs : List Query}
    (h : Fans table (conds.flatMap (conditionParts table)) qs) :
    (pairConds qs).Makes (List.Forall₂ Test.Checks (conds.map (testOf table))) := by
  induction conds generalizing qs
  case nil =>
    cases h
    exact makes_pure .nil
  case cons c conds ih =>
    cases h
    case cons q _ hq h =>
      cases h
      case cons k qs hk hqs =>
        have ⟨_, ⟨p₁, hi⟩, hq⟩ := hq.single
        have ⟨_, ⟨p₂, hj⟩, hk⟩ := hk.single
        simp only [pairConds, hq, hk, List.zip_cons_cons, List.zip_nil_right, List.mapM_cons,
          List.mapM_nil, bind_assoc, pure_bind]
        refine makes_newPart.bind fun p _ => (ih hqs).bind fun cs hcs => makes_pure ?_
        exact .cons ⟨⟨p₁, hi⟩, ⟨p₂, hj⟩⟩ hcs

theorem makes_compileInclusion {conds : List (Route × String)} (hf : sw.freezeAll = false)
    (hn : conds ≠ [])
    (h : List.Forall₂ (fun a c => c.Lists table a.1 [] a.2) (conds.flatMap (conditionParts table)) cs) :
    (compileInclusion sw cs).Makes (Compiled.Lists table
      (firsts Hop.key (conds.flatMap fun c => hops table c.1.links))
      (firsts Test.text (conds.map (testOf table))) [(table, identifierColumn table)]) := by
  obtain ⟨qs, _, hqs, hm⟩ := exists_fans hf h
  have hhops : firsts Hop.key ((conds.flatMap (conditionParts table)).flatMap (·.1))
      = firsts Hop.key (conds.flatMap fun c => hops table c.1.links) := by
    have he : (conds.flatMap (conditionParts table)).flatMap (·.1)
        = conds.flatMap fun c => firsts Hop.key (hops table c.1.links) := by
      simp [List.flatMap_assoc, conditionParts]
    rw [he, firsts_flatMap_firsts]
  obtain ⟨q, qs, rfl⟩ : ∃ q qs', qs = q :: qs' := by
    cases conds
    case nil => exact absurd rfl hn
    case cons =>
      cases hqs
      exact ⟨_, _, rfl⟩
  have hd := hqs.forall_domain
  have hw : q.wheres = [] := by
    have := hqs.wheres
    simp_all
  unfold compileInclusion
  simp only [← bind_assoc, hm, pure_bind]
  simp only [bind_assoc]
  refine Makes.get_bind (x := q) rfl ?_
  refine (makes_mapM (R := fun _ (js : List Join) => js = []) fun q' hq' => ?_).bind fun js hjs => ?_
  · obtain ⟨i, ⟨p, rfl⟩, hi⟩ := hd q' (List.mem_cons_of_mem _ hq')
    obtain ⟨j, ⟨p', rfl⟩, hj⟩ := hd q (by simp)
    rw [hi, hj]
    refine Makes.get_bind rfl <| Makes.get_bind rfl <| Makes.ofExcept_bind rfl <|
      Makes.ofExcept_bind rfl ?_
    simp only [beq_self_eq_true, if_true]
    exact makes_pure rfl
  have hjs : js.flatten = [] := by
    refine List.flatten_eq_nil_iff.mpr fun j hj => ?_
    obtain ⟨_, _, hj⟩ := exists_of_mem_right hjs hj
    exact hj
  refine (makes_copies (hd q (by simp))).bind fun codomain hc => ?_
  obtain ⟨i, hi, rfl⟩ := hc
  refine (makes_pairConds hqs).bind fun cs' hcs' => Makes.map ?_ fun q hq => ⟨q, rfl, hq⟩
  obtain ⟨p, hp⟩ : ∃ p, q.source = some ⟨p, table, ""⟩ := by
    obtain ⟨_, _, hq⟩ := exists_of_mem_right hqs (List.mem_cons_self ..)
    exact hq.source
  rw [hqs.frozen]
  exact makes_create ⟨hd q (by simp), .cons hi .nil, ⟨p, hp⟩, by simpa [hjs] using hqs.joins,
    by simpa [hw] using hcs', rfl, rfl, rfl⟩ hhops rfl

end Sql
end Inquiry
