import Mathlib
import Inquiry.Proofs.Sql.Listing

/-!
Queries that have the shape of a list: a join for each hop, a condition for each test. The joins are
followed one by one from a row of the first table, and each adds at most one row.
-/

namespace Inquiry

open List

namespace Sql

variable {db : Database} {l : Listing} {e e' : Binding} {h : Hop} {hs : List Hop} {r : Row}

namespace Hop

structure Joins (h : Hop) (j : Join) : Prop where
  table  : j.table = h.link.table
  asName : j.asName = h.name
  conds  : ∃ p p₁ p₂, j.conds = [⟨p, .column p₁ h.name (identifierColumn h.link.table) none,
    .column p₂ h.base h.link.column none⟩]

-- Adds the row that a hop leads to.
def follow (db : Database) (e : Binding) (h : Hop) : Option Binding :=
  db.find h.link.table ((e.lookup h.base).bind (· h.link.column)) |>.map fun r => e ++ [(h.name, r)]

theorem Joins.name {j : Join} (hj : h.Joins j) : j.name = h.name := by
  simp [Source.name, hj.asName, h.name_ne_empty]

theorem follow_eq_some (hf : h.follow db e = some e') : ∃ r r', e.lookup h.base = some r ∧
    db.find h.link.table (r h.link.column) = some r' ∧ e' = e ++ [(h.name, r')] := by
  have ⟨r', hr, he⟩ := Option.map_eq_some_iff.mp hf
  cases hb : e.lookup h.base <;> simp only [hb, Option.bind_none, Option.bind_some] at hr
  case none   => simp [Database.find] at hr
  case some r => exact ⟨r, r', rfl, hr, he.symm⟩

theorem Joins.extend {j : Join} (hj : h.Joins j) (hdb : db.Keyed) (hb : h.base.isEmpty = false)
    (hn : e.lookup h.name = none) : j.extend db e = (h.follow db e).toList := by
  have ⟨p, p₁, p₂, hc⟩ := hj.conds
  have hv (r : Row) : (e ++ [(h.name, r)]).lookup h.base = e.lookup h.base := by
    simp [lookup_append, List.lookup, beq_false_of_ne h.name_ne_base.symm]
  have hf := Database.filter_eq_find hdb h.link.table ((e.lookup h.base).bind (· h.link.column))
  simp [Join.extend, hj.table, hj.name, hc, filter_map, Function.comp_def, Cond.holds,
    Item.value, h.name_ne_empty, hb, hv, hn, lookup_append, List.lookup, hf, follow,
    Option.toList_map]

end Hop

def followAll (db : Database) (hs : List Hop) (e : Binding) : Option Binding :=
  hs.foldlM (Hop.follow db) e

@[simp]
theorem followAll_nil : followAll db [] e = some e := rfl

theorem followAll_cons : followAll db (h :: hs) e = (h.follow db e).bind (followAll db hs) :=
  rfl

theorem foldl_extend {js : List Join} {es : List Binding} :
    js.foldl (fun es j => es.flatMap (j.extend db)) es
      = es.flatMap fun e => js.foldl (fun es j => es.flatMap (j.extend db)) [e] := by
  induction js generalizing es
  case nil => simp
  case cons j js ih =>
    simp only [foldl_cons, flatMap_singleton]
    rw [ih, flatMap_assoc]
    congr
    funext e
    exact ih.symm

theorem lookup_eq_none {n : String} (h : n ∉ e.map (·.1)) : e.lookup n = none := by
  refine lookup_eq_none_iff.mpr fun p hp => bne_iff_ne.mpr fun hn => h ?_
  exact hn ▸ mem_map_of_mem hp

theorem lookup_name (hn : (e.map (·.1) ++ (h :: hs).map Hop.name).Nodup) :
    e.lookup h.name = none := by
  refine lookup_eq_none fun hm => ?_
  simp only [map_cons, nodup_append, mem_cons] at hn
  exact hn.right.right _ hm _ (.inl rfl) rfl

theorem bindings_of_joins {js : List Join} (hdb : db.Keyed) (hj : Forall₂ Hop.Joins hs js)
    (hb : ∀ h ∈ hs, h.base.isEmpty = false) (hn : (e.map (·.1) ++ hs.map Hop.name).Nodup) :
    js.foldl (fun es j => es.flatMap (j.extend db)) [e] = (followAll db hs e).toList := by
  induction hj generalizing e
  case nil => rfl
  case cons h j hs js hj _ ih =>
    have ⟨hb, hbs⟩ := forall_mem_cons.mp hb
    rw [foldl_cons, flatMap_singleton, hj.extend hdb hb (lookup_name hn), foldl_extend,
      followAll_cons]
    cases hf : h.follow db e
    case none => rfl
    case some e' =>
      have ⟨_, _, _, _, he⟩ := Hop.follow_eq_some hf
      simpa using ih hbs (by simpa [he] using hn)

theorem lookup_of_followAll {n : String} (hf : followAll db hs e = some e')
    (hr : e.lookup n = some r) : e'.lookup n = some r := by
  induction hs generalizing e
  case nil => simp_all
  case cons h hs ih =>
    simp only [followAll_cons, Option.bind_eq_some_iff] at hf
    have ⟨e₁, h₁, hf⟩ := hf
    have ⟨_, _, _, _, he⟩ := Hop.follow_eq_some h₁
    exact ih hf (by simp [he, lookup_append, hr])

theorem hop_of_followAll (hf : followAll db hs e = some e')
    (hn : (e.map (·.1) ++ hs.map Hop.name).Nodup) (hm : h ∈ hs) :
    ∃ r r', e'.lookup h.base = some r ∧ db.find h.link.table (r h.link.column) = some r' ∧
      e'.lookup h.name = some r' := by
  induction hs generalizing e
  case nil => simp at hm
  case cons k hs ih =>
    simp only [followAll_cons, Option.bind_eq_some_iff] at hf
    have ⟨e₁, h₁, h₂⟩ := hf
    have ⟨r, r', hb, hr, he⟩ := Hop.follow_eq_some h₁
    cases mem_cons.mp hm
    case inr hm => exact ih h₂ (by simpa [he] using hn) hm
    case inl hm =>
      subst hm
      refine ⟨r, r', lookup_of_followAll h₂ ?_, hr, lookup_of_followAll h₂ ?_⟩
      · simp [he, lookup_append, hb]
      · simp [he, lookup_append, lookup_name hn, List.lookup]

theorem followAll_append {hs' : List Hop} :
    followAll db (hs ++ hs') e = (followAll db hs e).bind (followAll db hs') :=
  foldlM_append

namespace Listing

variable {before : List Hop} {ks : List Link}

theorem Follows.tail {k : Link} (h : l.Follows (k :: ks)) : l.Follows ks :=
  have ⟨p, hp, hs⟩ := h
  ⟨p, hp, (suffix_cons k ks).trans hs⟩

theorem nameAfter_mem {start : String} (hh : Sql.hops start ks ⊆ hs) :
    nameAfter start ks ∈ start :: hs.map Hop.name := by
  induction ks
  case nil => simp [nameAfter]
  case cons k ks ih =>
    simp only [Sql.hops, append_subset] at hh
    by_cases hk : k.isLoop (nameAfter start ks)
    case pos => simpa [nameAfter, hk] using ih hh.left
    case neg =>
      simp only [hk, Bool.false_eq_true, if_false, cons_subset, nil_subset, and_true] at hh
      exact mem_cons_of_mem _ (mem_map.mpr ⟨_, hh.right, by simp [nameAfter, hk, Hop.name]⟩)

-- Where all hops on the way were followed, the name stands for the row that the links lead to.
theorem Legible.follow (hl : l.Legible) (hdb : db.Keyed) (hr : r ∈ db l.table)
    (hf : followAll db hs [(l.table, r)] = some e) (hn : (l.table :: hs.map Hop.name).Nodup)
    (hk : l.Follows ks) (hh : Sql.hops l.table ks ⊆ hs) :
    ∃ r', db.follow r ks = some r' ∧ r' ∈ db (tableAfter l.table ks) ∧
      e.lookup (nameAfter l.table ks) = some r' := by
  induction ks
  case nil => exact ⟨r, rfl, hr, lookup_of_followAll hf (by simp [nameAfter, List.lookup])⟩
  case cons k ks ih =>
    simp only [Sql.hops, append_subset] at hh
    have ⟨r', hr', hm, hb⟩ := ih hk.tail hh.left
    have hd : db.follow r (k :: ks) = db.find k.table (r' k.column) := by
      simp [Database.follow, hr']
    by_cases ho : k.isLoop (nameAfter l.table ks)
    case pos =>
      have ⟨ht, hc⟩ := hl.loops k ks hk ho
      have hm : r' ∈ db k.table := ht ▸ hm
      exact ⟨r', by rw [hd, hc, Database.find_identifier hdb hm], hm, by simp [nameAfter, ho, hb]⟩
    case neg =>
      simp only [ho, Bool.false_eq_true, if_false, cons_subset, nil_subset, and_true] at hh
      have ⟨r₁, r₂, hb', hr₂, hn⟩ := hop_of_followAll hf (by simpa using hn) hh.right
      have hr₁ : r₁ = r' := Option.some.inj (hb'.symm.trans hb)
      subst hr₁
      exact ⟨r₂, hd.trans hr₂, (Database.find_eq_some hr₂).left, by simpa [nameAfter, ho, Hop.name] using hn⟩

-- Each hop starts where hops before it have led to.
def Grounded (l : Listing) : List Hop → List Hop → Prop
  | _, []           => True
  | before, h :: hs =>
    (∃ ks, l.Follows (h.link :: ks) ∧ h.base = nameAfter l.table ks ∧ Sql.hops l.table ks ⊆ before) ∧
      Grounded l (before ++ [h]) hs

theorem grounded_append {hs' : List Hop} : l.Grounded before (hs ++ hs') ↔
    l.Grounded before hs ∧ l.Grounded (before ++ hs) hs' := by
  induction hs generalizing before <;> simp [Grounded]
  case cons h hs ih => simp [ih, and_assoc]

theorem Follows.grounded (h : l.Follows ks) : l.Grounded before (Sql.hops l.table ks) := by
  induction ks
  case nil => trivial
  case cons k ks ih =>
    refine grounded_append.mpr ⟨ih h.tail, ?_⟩
    split
    · trivial
    · exact ⟨⟨ks, h, rfl, subset_append_right ..⟩, trivial⟩

theorem grounded_hops : l.Grounded [] l.hops := by
  have h : ∀ ps before, ps ⊆ l.routes →
      l.Grounded before (ps.flatMap fun p => Sql.hops l.table p.links) := by
    intro ps
    induction ps
    case nil => exact fun _ _ => trivial
    case cons p ps ih =>
      intro before hp
      have ⟨hp, hps⟩ := cons_subset.mp hp
      exact grounded_append.mpr ⟨Follows.grounded ⟨p, hp, suffix_rfl⟩, ih _ hps⟩
  exact h _ _ (List.Subset.refl _)

theorem Legible.grounded_foldl (hl : l.Legible) {seen : List Hop} (hb : before ⊆ seen)
    (ha : hs ⊆ l.hops) (hm : seen ⊆ l.hops) (hg : l.Grounded before hs) (hg' : l.Grounded [] seen) :
    l.Grounded [] (hs.foldl (addFirst Hop.key) seen) := by
  induction hs generalizing before seen
  case nil => exact hg'
  case cons h hs ih =>
    obtain ⟨hh, ha⟩ := cons_subset.mp ha
    obtain ⟨hk, hg⟩ := hg
    cases addFirst_cases Hop.key seen h
    case inl hc =>
      obtain ⟨⟨h', hm', he⟩, hc⟩ := hc
      have hb' : before ++ [h] ⊆ seen := by
        have := hl.hops h' (hm hm') h hh he
        simpa [hb] using this ▸ hm'
      simpa [hc] using ih hb' ha hm hg hg'
    case inr hc =>
      simp only [foldl_cons, hc.right]
      refine ih (fun k hk => ?_) ha ?_ hg ?_
      · simpa using (mem_append.mp hk).imp_left (@hb k)
      · simp [hm, hh]
      · obtain ⟨ks, hk, he, hb'⟩ := hk
        exact grounded_append.mpr ⟨hg', ⟨ks, hk, he, List.Subset.trans hb' hb⟩, trivial⟩

theorem Legible.grounded (hl : l.Legible) : l.Grounded [] (firsts Hop.key l.hops) :=
  hl.grounded_foldl (List.Subset.refl []) (List.Subset.refl _) (nil_subset _) grounded_hops
    trivial

theorem Legible.exists_followAll (hl : l.Legible) (hdb : db.Keyed) (hr : r ∈ db l.table)
    (hk : ∀ ks, l.Follows ks → (db.follow r ks).isSome)
    (hb : followAll db before [(l.table, r)] = some e) (hg : l.Grounded before hs)
    (hn : (l.table :: (before ++ hs).map Hop.name).Nodup) : ∃ e', followAll db hs e = some e' := by
  induction hs generalizing before e
  case nil => exact ⟨e, rfl⟩
  case cons h hs ih =>
    have ⟨⟨ks, hf, he, hsub⟩, hg⟩ := hg
    have hn' : (l.table :: before.map Hop.name).Nodup :=
      hn.sublist (by simp)
    have ⟨r₁, hr₁, _, hl₁⟩ := hl.follow hdb hr hb hn' hf.tail hsub
    have ⟨r₂, hr₂⟩ := Option.isSome_iff_exists.mp (hk _ hf)
    have hf' : h.follow db e = some (e ++ [(h.name, r₂)]) := by
      simp only [Database.follow, hr₁, Option.bind_eq_bind, Option.bind_some] at hr₂
      simp [Hop.follow, he, hl₁, hr₂]
    have hb' : followAll db (before ++ [h]) [(l.table, r)] = some (e ++ [(h.name, r₂)]) := by
      simp [followAll_append, hb, followAll_cons, hf']
    simpa [followAll_cons, hf'] using ih hb' hg (by simpa using hn)

theorem length_le_nameAfter {start : String} : start.length ≤ (nameAfter start ks).length := by
  induction ks
  case nil => simp [nameAfter]
  case cons k ks ih =>
    simp only [nameAfter]
    split
    · exact ih
    · simp only [String.length_append]
      omega

theorem base_of_mem_hops (hm : h ∈ l.hops) : ∃ ks, h.base = nameAfter l.table ks := by
  simp only [hops, mem_flatMap] at hm
  obtain ⟨p, _, hm⟩ := hm
  generalize p.links = ks at hm
  induction ks
  case nil => simp [Sql.hops] at hm
  case cons k ks ih =>
    simp only [Sql.hops, mem_append] at hm
    cases hm
    case inl hm => exact ih hm
    case inr hm =>
      split at hm <;> simp at hm
      exact ⟨ks, by simp [hm]⟩

theorem Legible.nodup_names_iff (hl : l.Legible) :
    (l.table :: (firsts Hop.key l.hops).map Hop.name).Nodup ↔ l.Apart := by
  have mem {h} : h ∈ firsts Hop.key l.hops ↔ h ∈ l.hops := mem_firsts_iff Hop.key hl.hops
  constructor
  case mp =>
    intro hn h hh h' hh' he
    exact inj_on_of_nodup_map (nodup_cons.mp hn).right (mem.mpr hh) (mem.mpr hh') he
  case mpr =>
    intro ha
    refine nodup_cons.mpr ⟨fun hm => ?_, (nodup_firsts Hop.key).map_on fun h hh h' hh' => ?_⟩
    · have ⟨h, hh, he⟩ := mem_map.mp hm
      have ⟨ks, hb⟩ := base_of_mem_hops (mem.mp hh)
      -- A name is longer than that of the table that the list starts from.
      have hle : l.table.length ≤ h.base.length := hb ▸ length_le_nameAfter
      have hlen := congrArg String.length he
      have : "_".length = 1 := rfl
      simp only [Hop.name, String.length_append] at hlen
      omega
    · exact ha h (mem.mp hh) h' (mem.mp hh')

end Listing

-- The condition that a test puts.
structure Test.Checks (t : Test) (c : Cond) : Prop where
  lhs : ∃ p, c.lhs = .column p t.base t.column (some "")
  rhs : ∃ p, c.rhs = .column p "" ("'" ++ t.value ++ "'") (some "")

-- The item that gives a column of a name.
def Gives (out : String × String) (i : Item) : Prop :=
  ∃ p, i = .column p out.1 out.2 (some "")

-- A query for a row of a table and columns of the rows that hops lead to, under some tests.
structure Body.Lists (table : String) (hs : List Hop) (ts : List Test)
    (outs : List (String × String)) (b : Body) : Prop where
  domain   : ∃ i, Gives (table, identifierColumn table) i ∧ b.domain = [i]
  codomain : Forall₂ Gives outs b.codomain
  source   : ∃ p, b.source = some ⟨p, table, ""⟩
  joins    : Forall₂ Hop.Joins hs b.joins
  wheres   : Forall₂ Test.Checks ts b.wheres
  groups   : b.groups = .by []
  distinct : b.distinct = false
  orderBy  : b.orderBy = none

namespace Body.Lists

variable {table : String} {ts : List Test} {outs : List (String × String)} {b : Body}

theorem names (hb : b.Lists table hs ts outs) : b.names = table :: hs.map Hop.name := by
  have ⟨p, hp⟩ := hb.source
  have hj : hs.map Hop.name = b.joins.map (·.name) :=
    map_eq_map_of_forall₂ hb.joins fun _ _ hj => hj.name.symm
  simp [Body.names, hp, Source.name, hj]

theorem items (hb : b.Lists table hs ts outs) :
    Forall₂ Gives ((table, identifierColumn table) :: outs) b.items := by
  have ⟨i, hi, hd⟩ := hb.domain
  simpa [Body.items, hd] using ⟨hi, hb.codomain⟩

theorem isPlain (hb : b.Lists table hs ts outs) : b.isPlain := by
  have hi : b.items.all Item.isColumn := by
    refine all_eq_true.mpr fun i hi => ?_
    have ⟨_, _, _, hi⟩ := exists_of_mem_right hb.items hi
    simp [hi, Item.isColumn]
  simp [Body.isPlain, hi, hb.groups, hb.distinct, hb.orderBy, Grouping.groupsRows]

theorem joinsScoped (hb : b.Lists l.table hs ts outs) (hg : l.Grounded [] hs) :
    JoinsScoped [l.table] b.joins := by
  have h : ∀ {before js}, Forall₂ Hop.Joins hs js → l.Grounded before hs →
      JoinsScoped (l.table :: before.map Hop.name) js := by
    clear hb hg
    intro before js hj hg
    induction hj generalizing before
    case nil => trivial
    case cons h j hs js hj _ ih =>
      have ⟨⟨ks, _, he, hs⟩, hg⟩ := hg
      have ⟨_, _, _, hc⟩ := hj.conds
      have hm : h.base ∈ l.table :: before.map Hop.name := he ▸ Listing.nameAfter_mem hs
      refine ⟨?_, by simpa [hj.name] using ih hg⟩
      simp only [hc, mem_singleton, forall_eq, Cond.tables, Item.tables, hj.name]
      intro t ht
      simp only [mem_append, mem_singleton] at ht hm ⊢
      cases ht
      case inl ht => exact .inr (.inr ht)
      case inr ht => exact .inr (.inl (ht ▸ hm))
  exact h hb.joins hg

theorem scoped_iff (hb : b.Lists l.table hs ts outs) (hg : l.Grounded [] hs)
    (ho : ∀ o ∈ outs, o.1 ∈ l.table :: hs.map Hop.name)
    (ht : ∀ t ∈ ts, t.base ∈ l.table :: hs.map Hop.name) :
    b.Scoped ↔ (l.table :: hs.map Hop.name).Nodup := by
  constructor
  case mp => exact fun h => hb.names ▸ h.distinct
  case mpr =>
    intro hn
    obtain ⟨p, hp⟩ := hb.source
    refine ⟨hb.names ▸ hn, ?_, by simpa [hp, Source.name] using hb.joinsScoped hg, ?_,
      by simp [hb.groups, Grouping.columns]⟩
    · intro i hi
      obtain ⟨o, hm, _, hi⟩ := exists_of_mem_right hb.items hi
      have ho : o.1 ∈ l.table :: hs.map Hop.name := by
        cases mem_cons.mp hm
        case inl hm => simp [hm]
        case inr hm => exact ho o hm
      simp only [hi, Item.tables, mem_singleton, forall_eq, hb.names]
      exact .inr ho
    · intro c hc
      obtain ⟨t, hm, ⟨_, hl⟩, ⟨_, hr⟩⟩ := exists_of_mem_right hb.wheres hc
      simp only [Cond.tables, hl, hr, Item.tables, mem_append, mem_singleton, hb.names]
      rintro _ (rfl | rfl)
      · exact .inr (ht t hm)
      · exact .inl rfl

theorem bindings (hb : b.Lists table hs ts outs) (hdb : db.Keyed) (ht : table.isEmpty = false)
    (he : ∀ h ∈ hs, h.base.isEmpty = false) (hn : (table :: hs.map Hop.name).Nodup) :
    b.bindings db = (db table).flatMap fun r => (followAll db hs [(table, r)]).toList := by
  have ⟨p, hp⟩ := hb.source
  have hr (r : Row) := bindings_of_joins (e := [(table, r)]) hdb hb.joins he (by simpa using hn)
  simp only [Body.bindings, hp, ht, Bool.false_eq_true, if_false]
  rw [foldl_extend, flatMap_map]
  simp [Source.name, hr]

end Body.Lists

theorem literal_quoted (v : String) : literal ("'" ++ v ++ "'") = some v := by
  simp [literal]

theorem Gives.value {o : String × String} {i : Item} (h : Gives o i) (ho : o.1.isEmpty = false) :
    i.value e = (e.lookup o.1).bind (· o.2) := by
  have ⟨_, h⟩ := h
  simp [h, Item.value, ho]

theorem Test.Checks.holds_iff {t : Test} {c : Cond} (h : t.Checks c) (ht : t.base.isEmpty = false) :
    c.holds e ↔ (e.lookup t.base).bind (· t.column) = some t.value := by
  have ⟨⟨_, hl⟩, ⟨_, hr⟩⟩ := h
  have hl : c.lhs.value e = (e.lookup t.base).bind (· t.column) := by simp [hl, Item.value, ht]
  have hr : c.rhs.value e = some t.value := by simp [hr, Item.value, literal_quoted]
  simp only [Cond.holds, hl, hr, Bool.and_eq_true, beq_iff_eq]
  exact ⟨And.right, fun h => ⟨by simp [h], h⟩⟩

namespace Listing

def columns (l : Listing) : List (String × String) :=
  l.outputs.map fun p => (nameAfter l.table p.links, p.column)

theorem follows_of_mem {p : Route} (h : p ∈ l.routes) : l.Follows p.links :=
  ⟨p, h, suffix_rfl⟩

theorem hops_subset {p : Route} (h : p ∈ l.routes) : Sql.hops l.table p.links ⊆ l.hops :=
  fun _ hh => mem_flatMap.mpr ⟨p, h, hh⟩

theorem follow_isSome_of_suffix {ks ks' : List Link} (h : ks <:+ ks')
    (hf : (db.follow r ks').isSome) : (db.follow r ks).isSome := by
  induction ks'
  case nil => simpa [suffix_nil.mp h] using hf
  case cons k ks' ih =>
    cases suffix_cons_iff.mp h
    case inl h => exact h ▸ hf
    case inr h =>
      refine ih h ?_
      cases hr : db.follow r ks' <;> simp [Database.follow, hr] at hf ⊢

theorem follow_isSome {cells : List Cell} (h : l.answer db r = some cells) {ks : List Link}
    (hk : l.Follows ks) : (db.follow r ks).isSome := by
  obtain ⟨p, hp, hs⟩ := hk
  refine follow_isSome_of_suffix hs ?_
  simp only [answer] at h
  split at h
  case isFalse => simp at h
  case isTrue hc =>
    obtain ⟨cs, hm, _⟩ := Option.map_eq_some_iff.mp h
    have hv : (p.value db r).isSome := by
      cases mem_append.mp hp
      case inl hp =>
        obtain ⟨⟨p', v⟩, hm, he⟩ := mem_map.mp hp
        have := all_eq_true.mp hc _ hm
        simp only [beq_iff_eq] at this
        simp [← he, this]
      case inr hp =>
        obtain ⟨_, _, hv⟩ := exists_of_mem_right (mapM_eq_some.mp hm).flip hp
        simp [hv]
    simpa [Route.value] using hv

theorem nameAfter_isEmpty (ht : l.table.isEmpty = false) (ks : List Link) :
    (nameAfter l.table ks).isEmpty = false := by
  induction ks
  case nil => exact ht
  case cons k ks ih =>
    simp only [nameAfter]
    split
    · exact ih
    · simp

section

variable {b : Body} {hs : List Hop}

theorem all_holds_iff (hl : l.Legible) (ht : l.table.isEmpty = false)
    (hb : b.Lists l.table hs (firsts Test.text l.tests) l.columns)
    (hv : ∀ p ∈ l.routes, p.value db r
      = some ((e.lookup (nameAfter l.table p.links)).bind (· p.column))) :
    b.wheres.all (Cond.holds e) = l.conditions.all fun (p, v) => p.value db r == some (some v) := by
  have mem {t} : t ∈ firsts Test.text l.tests ↔ t ∈ l.tests := mem_firsts_iff Test.text hl.tests
  have hv {p v} (hp : (p, v) ∈ l.conditions) : p.value db r = some (some v) ↔
      (e.lookup (nameAfter l.table p.links)).bind (· p.column) = some v := by
    rw [hv p (mem_append_left _ (mem_map.mpr ⟨_, hp, rfl⟩)), Option.some.injEq]
  rw [Bool.eq_iff_iff, all_eq_true, all_eq_true]
  constructor
  case mp =>
    rintro h ⟨p, v⟩ hp
    have ht' := mem.mpr (mem_map.mpr ⟨_, hp, rfl⟩)
    have ⟨c, hc, hch⟩ := exists_of_mem_right hb.wheres.flip ht'
    exact beq_iff_eq.mpr ((hv hp).mpr ((hch.holds_iff (nameAfter_isEmpty ht _)).mp (h c hc)))
  case mpr =>
    intro h c hc
    have ⟨t, ht', hch⟩ := exists_of_mem_right hb.wheres hc
    have ⟨⟨p, v⟩, hp, he⟩ := mem_map.mp (mem.mp ht')
    subst he
    exact (hch.holds_iff (nameAfter_isEmpty ht _)).mpr ((hv hp).mp (beq_iff_eq.mp (h _ hp)))

theorem map_items (ht : l.table.isEmpty = false) {ts : List Test}
    (hb : b.Lists l.table hs ts l.columns) (he : e.lookup l.table = some r) :
    b.items.map (Item.value e) = r (identifierColumn l.table) ::
      l.outputs.map fun p => (e.lookup (nameAfter l.table p.links)).bind (· p.column) := by
  have ⟨i, hi, hd⟩ := hb.domain
  have hc : l.outputs.map (fun p => (e.lookup (nameAfter l.table p.links)).bind (· p.column))
      = b.codomain.map (Item.value e) :=
    map_eq_map_of_forall₂ (forall₂_map_left_iff.mp hb.codomain) fun p i hi =>
      (hi.value (nameAfter_isEmpty ht _)).symm
  simp [Body.items, hd, hc, hi.value ht, he]

end

variable {b : Body}

-- A row goes through the query exactly if it is part of the list, and gives what the list says.
theorem Legible.toList_answer (hl : l.Legible) (ha : l.Apart) (ht : l.table.isEmpty = false)
    (hb : b.Lists l.table (firsts Hop.key l.hops) (firsts Test.text l.tests) l.columns)
    (hdb : db.Keyed) (hr : r ∈ db l.table) :
    ((followAll db (firsts Hop.key l.hops) [(l.table, r)]).toList.filter fun e =>
      b.wheres.all (Cond.holds e)).map (fun e => b.items.map (Item.value e))
        = (l.answer db r).toList := by
  have hn := hl.nodup_names_iff.mpr ha
  cases hf : followAll db (firsts Hop.key l.hops) [(l.table, r)]
  case none =>
    cases hc : l.answer db r
    case none => rfl
    case some cells =>
      obtain ⟨e, he⟩ := hl.exists_followAll hdb hr (fun _ => follow_isSome hc) followAll_nil
        hl.grounded (by simpa using hn)
      simp [hf] at he
  case some e =>
    have hv {p} (hp : p ∈ l.routes) : p.value db r
        = some ((e.lookup (nameAfter l.table p.links)).bind (· p.column)) := by
      obtain ⟨r', hr', _, he⟩ := hl.follow hdb hr hf hn (follows_of_mem hp) fun h hh =>
        (mem_firsts_iff Hop.key hl.hops).mpr (hops_subset hp hh)
      simp [Route.value, hr', he]
    have hm : l.outputs.mapM (Route.value db r) = some (l.outputs.map fun p =>
        (e.lookup (nameAfter l.table p.links)).bind (· p.column)) :=
      mapM_eq_some.mpr <| forall₂_map_right_iff.mpr <| forall₂_same.mpr fun p hp =>
        hv (mem_append_right _ hp)
    have hi := map_items (r := r) ht hb (lookup_of_followAll hf (by simp [List.lookup]))
    have hw := all_holds_iff hl ht hb fun p => hv
    cases hc : b.wheres.all (Cond.holds e) <;> simp [answer, ← hw, hc, hm, hi]

theorem scoped_iff_apart (hl : l.Legible)
    (hb : b.Lists l.table (firsts Hop.key l.hops) (firsts Test.text l.tests) l.columns) :
    b.Scoped ↔ l.Apart := by
  have mem {h} : h ∈ firsts Hop.key l.hops ↔ h ∈ l.hops := mem_firsts_iff Hop.key hl.hops
  have name {p} (hp : p ∈ l.routes) :
      nameAfter l.table p.links ∈ l.table :: (firsts Hop.key l.hops).map Hop.name :=
    nameAfter_mem fun _ hh => mem.mpr (hops_subset hp hh)
  rw [hb.scoped_iff hl.grounded, hl.nodup_names_iff]
  · intro o ho
    have ⟨p, hp, he⟩ := mem_map.mp ho
    exact he ▸ name (mem_append_right _ hp)
  · intro t ht
    have ⟨⟨p, v⟩, hp, he⟩ := mem_map.mp ((mem_firsts_iff Test.text hl.tests).mp ht)
    exact he ▸ name (mem_append_left _ (mem_map.mpr ⟨_, hp, rfl⟩))

theorem rows_iff_apart (hl : l.Legible) (ht : l.table.isEmpty = false)
    (hb : b.Lists l.table (firsts Hop.key l.hops) (firsts Test.text l.tests) l.columns) :
    (∀ db : Database, db.Keyed → b.rows db = some (l.answers db)) ↔ l.Apart := by
  have mem {h} : h ∈ firsts Hop.key l.hops ↔ h ∈ l.hops := mem_firsts_iff Hop.key hl.hops
  have hs : b.Scoped ↔ l.Apart := scoped_iff_apart hl hb
  constructor
  case mp =>
    intro h
    -- Even an empty database gives no rows to a query that is not well scoped.
    have h := h (fun _ => []) ⟨by simp, by simp⟩
    simp only [Body.rows] at h
    split at h
    case isTrue hr  => exact hs.mp hr.right
    case isFalse    => simp at h
  case mpr =>
    intro ha db hdb
    have hn := hl.nodup_names_iff.mpr ha
    have he : ∀ h ∈ firsts Hop.key l.hops, h.base.isEmpty = false := fun h hh =>
      have ⟨_, hb⟩ := base_of_mem_hops (mem.mp hh)
      hb ▸ nameAfter_isEmpty ht _
    simp only [Body.rows, hb.isPlain, hs.mpr ha, and_self, if_true, hb.bindings hdb ht he hn, answers,
      filterMap_eq_flatMap_toList, filter_flatMap, map_flatMap, Option.some.injEq]
    exact flatMap_congr fun r hr => hl.toList_answer ha ht hb hdb hr

end Listing
end Sql
end Inquiry
