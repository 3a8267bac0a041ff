import Mathlib
import Inquiry.Proofs.Sql.Ordering

/-!
Queries that are ordered by a variable. The column of the variable stays marked when it stands among
other columns, when it is taken on the rows of another query, when it is summed up, and when the sum
is divided.
-/

namespace Inquiry

open List

namespace Term

theorem Own.kind {v : Term} (h : v.Own) :
    ∃ hd ty d c s, v = .kind hd ty d c s ∧ hd.cls = .variable := by
  have hv := h.isVariable
  cases v <;> simp [Term.isVariable, hasClass, cls?] at hv
  exact ⟨_, _, _, _, _, rfl, hv⟩

theorem Own.shown {v : Term} (h : v.Own) : v.shown = ([], [v]) := by
  obtain ⟨_, _, _, _, _, rfl, _⟩ := h.kind
  simp

theorem Own.equals_self {v : Term} (h : v.Own) : v.equals v := by
  obtain ⟨_, _, _, _, _, rfl, _⟩ := h.kind
  simp [equals]

-- The rows that a variable ranks: it stands alone or is one of several columns, the first of which
-- belongs to an object type.
inductive Offers (key : Term) (alone : Prop) : Term → Prop
  | key : Offers key alone key
  | product {n v ts ty} : ¬alone → v.Own → key ∈ v :: ts →
    Offers key alone (.app n .product (v :: ts) ty)

-- The rows may be those of another query.
inductive Takes (key : Term) (alone : Prop) : Term → Prop
  | all {t} : Offers key alone t → Takes key alone t
  | on {n v w ty} : Offers key alone v → Takes key alone (.app n .composition [v, w] ty)

-- A ranking by a variable, by its total, or by its average.
inductive Ranks (key : Term) : Term → Prop
  | rows {t} : Takes key False t → Ranks key t
  | total {n v w ty} : Takes key False v → Ranks key (.app n .aggregation [v, w] ty)
  | average {n m k d v w u ty ty' ty''} : d.hasClass .operator → Takes key True v →
    Ranks key (.app n .composition [d, .app m .product [.app k .aggregation [v, w] ty'', u] ty'] ty)

variable {key t : Term} {alone : Prop}

theorem Offers.key_mem (hk : key.Own) (h : Offers key alone t) : key ∈ t.shown.2 := by
  cases h
  case key           => simp [hk.shown]
  case product hv hm => exact shown_cod_subset (.inr rfl) hm (by simp [hk.shown])

theorem Takes.key_mem (hk : key.Own) (h : Takes key alone t) : key ∈ t.shown.2 := by
  cases h
  case all h => exact h.key_mem hk
  case on h  => exact shown_cod_subset (.inl rfl) (by simp) (h.key_mem hk)

theorem shown_total {n : Nat} {v w : Term} {ty : Option Term} :
    (app n .aggregation [v, w] ty).shown = (w.shown.2, v.shown.2) :=
  shown_aggregation rfl rfl

theorem Ranks.key_mem (hk : key.Own) (h : Ranks key t) : key ∈ t.shown.2 := by
  cases h
  case rows h      => exact h.key_mem hk
  case total h     => exact shown_total ▸ h.key_mem hk
  case average h =>
    refine shown_cod_subset (.inl rfl) (mem_cons_of_mem _ (mem_singleton_self _)) ?_
    refine shown_cod_subset (.inr rfl) mem_cons_self ?_
    exact shown_total ▸ h.key_mem hk

end Term

namespace Sql

open SessionM Term

-- No column that is stored is called like the marked one.
def Unnamed (ks : List Term) : Prop :=
  ∀ k ∈ ks, ∀ h, k.head? = some h → Text.underscored h.name ≠ keyAlias

-- One of the kinds is the variable, and all others can be told from it.
structure Once (key : Term) (ks : List Term) : Prop where
  once    : ks.countP key.equals = 1
  unnamed : Unnamed ks

variable {key t v w u : Term} {ts ks : List Term} {r : Setting} {n : Nat} {op : Op}
  {ty : Option Term} {alone dom cod : Prop} {s : Session} {b b' : Body} {q q' lhs rhs : Query}

theorem clear_of_countP (hr : r.key = some key) (h : ks.countP key.equals = 0) (hn : Unnamed ks) :
    r.Clear ks := by
  intro k hk
  have := countP_eq_zero.mp h k hk
  exact ⟨by simpa [hr] using this, hn k hk⟩

-- Where the variable is among some of the kinds, all others are clear of it.
theorem Once.part {l l' : List Term} (hk : key.Own) (hr : r.key = some key)
    (h : Once key (l ++ ks ++ l')) (hm : key ∈ ks) : Once key ks ∧ r.Clear l ∧ r.Clear l' := by
  have hpos := countP_pos_iff.mpr ⟨key, hm, hk.equals_self⟩
  have hs := h.once
  simp only [countP_append] at hs
  refine ⟨⟨by omega, fun k hk => h.unnamed k (by simp [hk])⟩, ?_, ?_⟩
  · exact clear_of_countP hr (by omega) fun k hk => h.unnamed k (by simp [hk])
  · exact clear_of_countP hr (by omega) fun k hk => h.unnamed k (by simp [hk])

-- The query is ordered, and exactly one of its columns is marked.
structure Body.Ordered (dom cod : Prop) (b : Body) : Prop where
  orderBy  : b.orderBy = some keyAlias
  domain   : dom → ∀ i ∈ b.domain, i.face.Plain
  codomain : cod → ∃ l f r, b.codomain.map Item.face = l ++ f :: r ∧ f.asName = some keyAlias ∧
    ∀ g ∈ l ++ r, g.Plain

def Body.marks (b : Body) : Nat :=
  (b.items.map Item.face).countP Face.marked

theorem Body.Resembles.marks_eq (h : b.Resembles b') : b'.marks = b.marks := by
  simp only [marks, items, map_append, h.domain, h.codomain]

theorem countP_marked_eq_zero {fs : List Face} (h : ∀ f ∈ fs, f.Plain) :
    fs.countP Face.marked = 0 :=
  countP_eq_zero.mpr fun f hf => by simp [(h f hf).marked]

theorem Body.Ordered.marks_eq (h : b.Ordered dom cod) (hd : dom) (hc : cod) : b.marks = 1 := by
  have ⟨l, f, r, hf, ha, hp⟩ := h.codomain hc
  have hd := countP_marked_eq_zero (forall_mem_map.mpr (h.domain hd))
  have hc := countP_marked_eq_zero hp
  have hm : f.marked := by simp [Face.marked, ha]
  simp only [marks, items, map_append, countP_append, hd, hf, countP_cons, hm] at hc ⊢
  simp only [if_true]
  omega

theorem Body.Traces.marks_eq {clear : Prop} (h : b.Traces clear dom cod n) (hd : dom) (hc : cod) :
    b.marks = 0 := by
  refine countP_marked_eq_zero (forall_mem_map.mpr fun i hi => ?_)
  cases mem_append.mp hi
  case inl hi => exact (h.domain i hi).2 hd
  case inr hi => exact (h.codomain i hi).2 hc

-- The query of rows that a variable ranks; it does not have to be kept before it is used.
structure Body.Offers (dom cod alone : Prop) (b : Body) : Prop extends Body.Ordered dom cod b where
  groups   : b.groups.groupsRows = false
  distinct : b.distinct = false
  alone    : alone → b.codomain.length = 1

theorem freezeGrouped_loose {sw : Switches} (hw : sw.freezeAll = false)
    (hg : q.groups.groupsRows = false) (hd : q.distinct = false) :
    freezeGrouped sw (.query q) = pure (.query q) := by
  simp [freezeGrouped, hw, hg, hd]

theorem entry_compileTerm (r : Setting) (hv : v.Own) : (compileTerm r v).Spends s fun n c =>
    ∃ h q, c = .query q ∧ q.Entry h (r.key.any (·.equals v)) n ∧ q.domain.length = 1 := by
  obtain ⟨h, ty, d, c, cs, rfl, hc⟩ := hv.kind
  change (compileKind r _ h).Spends s _
  rw [compileKind, hc]
  exact (entry_compileVariable r _).map fun n q _ hq => ⟨h, q, rfl, hq.1, hq.2 hv⟩

theorem Body.Entry.ordered {h : KindHead} (hb : b.Entry h true n) : b.Offers dom cod alone where
  orderBy    := hb.orderBy
  domain _   := hb.domain
  codomain _ := by
    have ⟨c, _, hf⟩ := hb.codomain
    exact ⟨[], _, [], hf, rfl, by simp⟩
  groups     := by simp [hb.groups, Grouping.groupsRows]
  distinct   := hb.distinct
  alone _    := by
    have ⟨c, _, hf⟩ := hb.codomain
    simpa using congrArg List.length hf

theorem compileAll_pair (r : Setting) (t u : Term) : compileTerm.compileAll r [t, u] = (do
    let c ← compileTerm r t
    let d ← compileTerm r u
    return [c, d]) := by
  simp [compileTerm.compileAll]

theorem spends_compileAll (r : Setting) {R : Nat → Term → Compiled → Prop}
    (hR : ∀ m n t c, m ≤ n → R m t c → R n t c)
    (h : ∀ t ∈ ts, ∀ s, (compileTerm r t).Spends s (R · t)) :
    (compileTerm.compileAll r ts).Spends s fun n => Forall₂ (R n) ts := by
  induction ts generalizing s
  case nil => exact spends_pure .nil
  case cons t ts ih =>
    have ⟨ht, h⟩ := forall_mem_cons.mp h
    exact (ht s).bind fun c s₁ _ hc => (ih h).bind fun cs s₂ h₂ hcs =>
      spends_pure (.cons (hR _ _ t c h₂ hc) hcs)

-- What is known of an argument of a product. A variable of an object type is compiled to a column.
structure Argument (r : Setting) (n : Nat) (t : Term) (c : Compiled) : Prop where
  traces : Traced r n t c
  entry  : t.Own → ∃ h q, c = .query q ∧ q.Entry h (r.key.any (·.equals t)) n ∧ q.domain.length = 1

theorem Argument.mono {m : Nat} {c : Compiled} (h : Argument r m t c) (hle : m ≤ n) :
    Argument r n t c := by
  refine ⟨Compiled.Traces.mono h.traces hle, fun ho => ?_⟩
  have ⟨hd, q, hc, he, hl⟩ := h.entry ho
  exact ⟨hd, q, hc, { he with parts := fun i hi => (he.parts i hi).trans_le hle }, hl⟩

theorem argument_compileTerm (r : Setting) (s : Session) (t : Term) :
    (compileTerm r t).Spends s (Argument r · t) := by
  by_cases ho : t.Own
  case pos =>
    exact ((traced_compileTerm r s t).and (entry_compileTerm r ho)).imp fun _ _ _ h =>
      ⟨h.1, fun _ => h.2⟩
  case neg => exact (traced_compileTerm r s t).imp fun _ _ _ h => ⟨h, (absurd · ho)⟩

theorem argument_freezeGrouped {c : Compiled} (hw : r.switches.freezeAll = false)
    (h : Argument r s.parts t c) : (freezeGrouped r.switches c).Spends s (Argument r · t) := by
  by_cases ho : t.Own
  case pos =>
    obtain ⟨hd, q, rfl, he, hl⟩ := h.entry ho
    rw [freezeGrouped_loose hw (by simp [he.groups, Grouping.groupsRows]) he.distinct]
    exact spends_pure h
  case neg => exact (traces_freezeGrouped _ h.traces).imp fun _ _ _ h => ⟨h, (absurd · ho)⟩

theorem exists_of_forall₂_append {R : α → β → Prop} {l r : List α} {a : α} {bs : List β}
    (h : Forall₂ R (l ++ a :: r) bs) : ∃ bl b br, bs = bl ++ b :: br ∧ Forall₂ R l bl ∧
      R a b ∧ Forall₂ R r br := by
  induction l generalizing bs
  case nil =>
    obtain ⟨b, br, hb, hr, rfl⟩ := forall₂_cons_left_iff.mp h
    exact ⟨[], b, br, rfl, .nil, hb, hr⟩
  case cons x l ih =>
    obtain ⟨b, bs, hb, hbs, rfl⟩ := forall₂_cons_left_iff.mp h
    obtain ⟨bl, b', br, rfl, hl, hb', hr⟩ := ih hbs
    exact ⟨b :: bl, b', br, rfl, .cons hb hl, hb', hr⟩

theorem plain_flatMap {qs : List Query}
    (h : Forall₂ (fun t q => Argument r n t (.query q)) ts qs)
    (hc : r.Clear (ts.flatMap fun t => t.shown.2)) :
    ∀ f ∈ (qs.flatMap (·.codomain)).map Item.face, f.Plain := by
  intro f hf
  obtain ⟨i, hi, rfl⟩ := mem_map.mp hf
  have ⟨q, hq, hi⟩ := mem_flatMap.mp hi
  have ⟨t, ht, hq⟩ := exists_of_mem_right h hq
  have hq : q.Traces _ _ _ n := hq.traces
  exact (hq.codomain i hi).2 (hc.mono fun k hk => mem_flatMap.mpr ⟨t, ht, hk⟩)

theorem Query.Multiplies.offers {qs : List Query} (hk : key.Own) (hr : r.key = some key)
    (hv : v.Own) (hm : key ∈ v :: ts)
    (hqs : Forall₂ (fun t q => Argument r n t (.query q)) (v :: ts) qs)
    (hq : Query.Multiplies qs q) :
    q.Offers True (Once key ((v :: ts).flatMap fun t => t.shown.2)) False ∧ q.domain.length = 1 := by
  obtain ⟨l, us, hts⟩ := append_of_mem hm
  have ⟨p, hp, hd, hg⟩ := hq.first
  have ⟨hh, p', hpp, he, hl⟩ : ∃ h p', (.query p : Compiled) = .query p' ∧
      p'.Entry h (r.key.any (·.equals v)) n ∧ p'.domain.length = 1 := by
    obtain ⟨_, _, ha, _, rfl⟩ := forall₂_cons_left_iff.mp hqs
    obtain rfl := Option.some.inj hp
    exact ha.entry hv
  obtain rfl := Compiled.query.inj hpp
  have key_eq : r.key.any (·.equals key) = true := by simp [hr, hk.equals_self]
  obtain ⟨ql, qk, qr, rfl, hql, hqk, hqr⟩ := exists_of_forall₂_append (hts ▸ hqs)
  obtain ⟨hk', q', hqq, hek, _⟩ := hqk.entry hk
  obtain rfl := Compiled.query.inj hqq
  rw [key_eq] at hek
  refine ⟨⟨⟨?_, fun _ => hd ▸ he.domain, fun ho => ?_⟩, ?_, hq.distinct, False.elim⟩, hd ▸ hl⟩
  · obtain ⟨_, hn⟩ | ⟨p, hp, ho, hs⟩ := lastOrder_cases (ql ++ qk :: qr)
    · have := hn qk (by simp)
      simp [hek.orderBy] at this
    · have ⟨_, _, hp⟩ := exists_of_mem_right hqs hp
      rw [hq.orderBy, ho]
      have ht : p.Traces _ _ _ n := hp.traces
      exact ht.order.resolve_left fun hn => by simp [hn] at hs
  · rw [hts, flatMap_append, flatMap_cons, ← append_assoc] at ho
    have ⟨_, hcl, hcr⟩ := ho.part hk hr (by simp [hk.shown])
    have ⟨c, _, hf⟩ := hek.codomain
    refine ⟨(ql.flatMap (·.codomain)).map Item.face, ⟨some keyAlias, some c⟩,
      (qr.flatMap (·.codomain)).map Item.face, ?_, rfl, fun f hf => ?_⟩
    · simp [hq.codomain, hf]
    · cases mem_append.mp hf
      case inl hf => exact plain_flatMap hql hcl f hf
      case inr hf => exact plain_flatMap hqr hcr f hf
  · simp [hg, he.groups, Grouping.groupsRows]

theorem isKey_of_face {i : Item} (h : i.face.name = some keyAlias) : isKey i = .ok true := by
  cases i
  case column p t n a =>
    obtain rfl : n = keyAlias := by simpa using h
    rfl
  case expr => simp at h

theorem ordered_applyOperator (before between : String) (hb : rhs.orderBy = some keyAlias)
    (hd : dom → ∀ i ∈ rhs.domain, i.face.Plain)
    (hc : cod → ∃ f fs, rhs.codomain.map Item.face = f :: fs ∧ f.name = some keyAlias) :
    (applyOperator before between rhs).Spends s fun _ q => q.Ordered dom cod := by
  have made {s : Session} (args : List Item) (a dir : String) (ha : cod → a = keyAlias) :
      (do return { rhs with codomain := [.expr (← newPart) args a before between], orderDir := dir } :
        SessionM Query).Spends s fun _ q => q.Ordered dom cod := by
    refine spends_newPart.bind fun p _ _ _ => spends_pure ⟨hb, hd, fun ho => ?_⟩
    exact ⟨[], _, [], rfl, by simp [ha ho], by simp⟩
  refine (Item.spends_copies rhs.codomain).bind fun args _ _ ⟨hf, _⟩ => ?_
  rw [if_pos (by simp [hb])]
  refine (spends_getAt _ _).bind fun first _ _ hfirst => ?_
  refine (spends_ofExcept (P := fun _ b => isKey first = .ok b) fun _ h => h).bind fun b _ _ hk => ?_
  split
  · exact made _ _ _ fun _ => rfl
  case isFalse hb =>
    have hn : ¬cod := by
      intro ho
      have ⟨f, fs, hfs, hn⟩ := hc ho
      obtain ⟨args, rfl⟩ := head?_eq_some_iff.mp (head?_eq_getElem?.trans hfirst)
      rw [hfs, map_cons] at hf
      have := isKey_of_face ((List.cons.inj hf).1 ▸ hn)
      rw [hk, Except.ok.injEq] at this
      exact hb this
    refine (spends_getAt _ _).bind fun second _ _ _ => spends_outcome.bind fun b _ _ _ => ?_
    split
    · exact made _ _ _ (absurd · hn)
    · exact made _ _ _ (absurd · hn)

section Compile

variable (hk : key.Own) (hr : r.key = some key) (hw : r.switches.freezeAll = false)
include hk hr hw

theorem offers_compileTerm (h : Offers key alone t) : (compileTerm r t).Spends s fun _ c =>
    ∃ q, c = .query q ∧ q.Offers True (Once key t.shown.2) alone ∧ q.domain.length = 1 := by
  cases h
  case key =>
    have key_eq : r.key.any (·.equals key) = true := by simp [hr, hk.equals_self]
    refine (entry_compileTerm r hk).imp fun n c _ ⟨h, q, hc, he, hl⟩ => ⟨q, hc, ?_, hl⟩
    rw [key_eq] at he
    exact he.ordered
  case product n v ts ty ha hv hm =>
    change (compileTerm.compileAll r (v :: ts) >>= compileProduct r.switches).Spends s _
    refine (spends_compileAll r (fun _ _ _ _ hle h => h.mono hle) fun t _ s =>
      argument_compileTerm r s t).bind fun cs s₁ _ hcs => ?_
    refine spends_compileProduct (spends_mapM_forall₂ (fun _ _ _ _ hle h => h.mono hle) hcs
      fun t c s' hs' h => argument_freezeGrouped hw (h.mono hs')) (fun _ _ _ _ hc => ?_)
      fun _ _ qs q _ hqs hq => ?_
    · obtain ⟨c, _, hv', _, rfl⟩ := forall₂_cons_left_iff.mp hcs
      obtain ⟨_, _, rfl, _⟩ := hv'.entry hv
      simp at hc
    · rw [forall₂_map_right_iff] at hqs
      have ⟨ho, hl⟩ := hq.offers hk hr hv hm hqs
      rw [shown_app, Op.shown, flatMap_map]
      exact ⟨q, rfl, { ho with alone := (absurd · ha) }, hl⟩

theorem takes_compileTerm (h : Takes key alone t) : (compileTerm r t).Spends s fun _ c =>
    ∃ q, c = .query q ∧ q.Offers (r.Clear t.shown.1) (Once key t.shown.2) alone := by
  cases h
  case all h =>
    exact (offers_compileTerm hk hr hw h).imp fun _ _ _ ⟨q, hc, hq, _⟩ =>
      ⟨q, hc, { hq with domain := fun _ => hq.domain trivial }⟩
  case on n v w ty h =>
    change (compileTerm.compileAll r [v, w] >>= fun cs =>
      cs.mapM (freezeGrouped r.switches) >>= compose).Spends s _
    simp only [compileAll_pair, bind_assoc, pure_bind, mapM_cons, mapM_nil]
    refine (offers_compileTerm hk hr hw h).bind ?_
    rintro _ s₁ _ ⟨lhs, rfl, hl, hd⟩
    refine (traced_compileTerm r s₁ w).bind fun c s₂ _ hc => ?_
    rw [freezeGrouped_loose hw hl.groups hl.distinct, pure_bind]
    refine (traces_freezeGrouped _ hc).bind fun c s₃ _ hc => ?_
    change (composeTwo (.query lhs) c >>= pure).Spends s₃ _
    rw [bind_pure]
    cases c
    case query rhs =>
      change (SessionM.Spends (if _ then _ else _) _ _)
      rw [if_pos (by simp [hd])]
      have hs : (Term.app n .composition [v, w] ty).shown
          = (w.shown.1, [] ++ v.shown.2 ++ w.shown.2) := by
        simp [shown_app, Op.shown]
      rw [hs]
      refine (spends_composeOne lhs rhs).map fun _ q _ hq => ⟨q, rfl, ⟨?_, ?_, ?_⟩, ?_, ?_, ?_⟩
      · rw [hq.orderBy, outerOrder, hl.orderBy]
        rfl
      · exact fun ho => hq.domain ▸ fun i hi => (hc.domain i hi).2 ho
      · exact fun ho => hq.faces ▸ hl.codomain (ho.part hk hr (h.key_mem hk)).1
      · simp [hq.groups, Grouping.groupsRows]
      · exact hq.distinct
      · intro ha
        have := congrArg List.length hq.faces
        simpa [hl.alone ha] using this
    case projection => exact spends_throw
    all_goals
      change (SessionM.Spends (if _ then _ else _) _ _)
      split <;> exact spends_throw

theorem totals_compileTerm (h : Takes key alone v) {n : Nat} :
    (compileTerm r (.app n .aggregation [v, w] ty)).Spends s fun _ c =>
      ∃ q, c = .query q ∧ q.Ordered (r.Clear w.shown.2) (Once key v.shown.2) ∧
        q.groups.groupsRows ∧ (alone → q.codomain.length = 1) ∧
        ∀ i ∈ q.codomain, ∀ j ∈ q.domain, j.part ≠ i.part := by
  change (compileTerm.compileAll r [v, w] >>= compileAggregation r.switches).Spends s _
  simp only [compileAll_pair, bind_assoc, pure_bind]
  refine (takes_compileTerm hk hr hw h).bind ?_
  rintro _ s₁ _ ⟨p, rfl, hp⟩
  refine (traced_compileTerm r s₁ w).bind fun c s₂ _ hc => ?_
  let F (m : Nat) (cs : List Compiled) : Prop := ∃ c, cs = [.query p, c] ∧ Traced r m w c
  refine spends_compileAggregation (F := F) ?_ ?_
  · simp only [mapM_cons, mapM_nil, freezeGrouped_loose hw hp.groups hp.distinct, pure_bind,
      bind_assoc]
    exact (traces_freezeGrouped _ hc).bind fun c _ _ hc => spends_pure ⟨c, rfl, hc⟩
  · rintro m k _ v' w' q _ ⟨c, rfl, hc⟩ hv hw hq
    obtain rfl : p = v' := by simpa using hv
    obtain rfl : c = .query w' := by simpa using hw
    have hc : w'.Traces _ _ _ m := hc
    have hd := hq.domain
    refine ⟨q, rfl, ⟨hq.orderBy.trans hp.orderBy, fun ho => ?_, fun ho => ?_⟩, hq.grouped, fun ha => ?_,
      fun i hi j hj => ?_⟩
    · exact hd ▸ fun i hi => (hc.codomain i hi).2 ho
    · have ⟨l, f, r', hf, ha, hpl⟩ := hp.codomain ho
      let sum (f : Face) : Face := ⟨some (f.asName.getD ""), none⟩
      have hs : q.codomain.map Item.face = (p.codomain.map Item.face).map sum := by
        simp [hq.faces, sum]
      refine ⟨l.map sum, sum f, r'.map sum, by simp [hs, hf], by simp [sum, ha], fun g hg => ?_⟩
      obtain ⟨g', hg', rfl⟩ := mem_map.mp (map_append ▸ hg)
      exact ⟨by simp [sum, (hpl g' hg').asName], by simp [sum]⟩
    · have := congrArg List.length hq.faces
      simpa [hp.alone ha] using this
    · have := (hq.parts i hi).1
      have := (hc.codomain j (hd ▸ hj)).1
      omega

-- A total is stored before something stands beside it; its mark is then the name of a column.
theorem dividend_compileTerm {m k : Nat} {ty' : Option Term} (h : Takes key True v) :
    (compileTerm r (.app m .product [.app k .aggregation [v, w] ty', u] ty)).Spends s fun _ c =>
      ∃ q, c = .query q ∧ q.orderBy = some keyAlias ∧
        q.groups.groupsRows = false ∧ q.distinct = false ∧
        (r.Clear w.shown.2 → ∀ i ∈ q.domain, i.face.Plain) ∧
        (Once key v.shown.2 →
          ∃ f fs, q.codomain.map Item.face = f :: fs ∧ f.name = some keyAlias) := by
  change (compileTerm.compileAll r [.app k .aggregation [v, w] ty', u] >>=
    compileProduct r.switches).Spends s _
  simp only [compileAll_pair, bind_assoc, pure_bind]
  refine (totals_compileTerm hk hr hw h).bind ?_
  rintro _ s₁ _ ⟨p, rfl, hp, hg, hl, hparts⟩
  refine (traced_compileTerm r s₁ u).bind fun c s₂ _ hc => ?_
  let F (n : Nat) (cs : List Compiled) : Prop := ∃ p' c, cs = [.query p', c] ∧ p.Reads n p' ∧
    Traced r n u c
  refine spends_compileProduct (F := F) ?_ (by simp) ?_
  · have hf : freezeGrouped r.switches (.query p) = .query <$> p.freeze := by simp [freezeGrouped, hg]
    simp only [mapM_cons, mapM_nil, hf, bind_map_left, pure_bind, bind_assoc]
    refine p.spends_freeze.bind fun p' s₃ _ hp' => ?_
    refine (traces_freezeGrouped _ (Compiled.Traces.mono hc (by omega))).bind fun c _ hle hc => ?_
    refine spends_pure ⟨p', c, rfl, ?_, hc⟩
    exact { hp' with parts := fun i hi => (hp'.parts i hi).trans_le hle }
  · rintro n _ qs q _ ⟨p', c, hqs, hp', hc⟩ hq
    obtain ⟨c', rfl, rfl⟩ : ∃ c', qs = [p', c'] ∧ c = .query c' := by
      rcases qs with _ | ⟨_, _ | ⟨c', _ | _⟩⟩ <;> simp_all
    obtain ⟨p₁, hp₁, hd, hg'⟩ := hq.first
    obtain rfl : p' = p₁ := by simpa using hp₁
    have hpo := hp'.orderBy.trans hp.orderBy
    obtain ⟨named, hn, hdf, hcf⟩ := hp'.faces
    refine ⟨q, rfl, ?_, by simp [hg', hp'.groups, Grouping.groupsRows], hq.distinct, fun ho j hj => ?_,
      fun ho => ?_⟩
    · rw [hq.orderBy]
      obtain ⟨_, hn⟩ | ⟨o, ho, he, hs⟩ := lastOrder_cases [p', c']
      · simp [hn p' (by simp)] at hpo
      · rw [he]
        obtain rfl | rfl : o = p' ∨ o = c' := by simpa using ho
        · exact hpo
        · have ht : o.Traces _ _ _ n := hc
          exact ht.order.resolve_left fun hn => by simp [hn] at hs
    · have hm := hdf ▸ mem_map_of_mem (f := Item.face) (hd ▸ hj)
      obtain ⟨j', hj', he⟩ := mem_map.mp hm
      exact he ▸ plain_readFace hn (by simp [Body.items, hj']) (hp.domain ho j' hj')
    · obtain ⟨i, hi⟩ := length_eq_one_iff.mp (hl trivial)
      obtain ⟨l, f, r', hf, hfa, _⟩ := hp.codomain ho
      have hfi : i.asName? = some keyAlias := by
        rw [hi, map_singleton] at hf
        have hm : f ∈ [i.face] := by simp [hf]
        rwa [mem_singleton.mp hm] at hfa
      refine ⟨_, _, by simp only [hq.codomain, flatMap_cons, map_append, hcf, hi]; rfl, ?_⟩
      rw [readFace_of_alone hn hfi]
      intro j hj ha
      cases mem_append.mp hj
      case inl hj => exact hparts i (by simp [hi]) j hj
      case inr hj =>
        obtain rfl : j = i := by simpa [hi] using hj
        simp [hfi, keyAlias] at ha

theorem average_compileTerm {n m k : Nat} {d : Term} {ty' ty'' : Option Term}
    (hd : d.hasClass .operator) (h : Takes key True v) :
    (compileTerm r (.app n .composition
      [d, .app m .product [.app k .aggregation [v, w] ty'', u] ty'] ty)).Spends s fun _ c =>
        ∃ q, c = .query q ∧ q.Ordered (r.Clear w.shown.2) (Once key v.shown.2) := by
  obtain ⟨hh, hc⟩ : ∃ hh, compileTerm r d = pure (compileOperator hh) := by
    cases d <;> simp [Term.hasClass, Term.cls?] at hd
    case kind hh _ _ _ _ => exact ⟨hh, by simp [compileTerm, compileKind, hd, KindClass.isRelation]⟩
  change (compileTerm.compileAll r [d, _] >>= fun cs =>
    cs.mapM (freezeGrouped r.switches) >>= compose).Spends s _
  simp only [compileAll_pair, bind_assoc, pure_bind, mapM_cons, mapM_nil, hc]
  refine (dividend_compileTerm hk hr hw h).bind ?_
  rintro _ s₁ _ ⟨q, rfl, hqo, hqg, hqd, hqd', hqc⟩
  have hf : freezeGrouped r.switches (compileOperator hh) = pure (compileOperator hh) := by
    rw [compileOperator]
    split <;> rfl
  simp only [hf, freezeGrouped_loose hw hqg hqd, pure_bind]
  change (composeTwo (compileOperator hh) (.query q) >>= pure).Spends s₁ _
  rw [bind_pure, compileOperator]
  split
  · exact (ordered_applyOperator _ _ hqo hqd' hqc).map fun _ q _ hq => ⟨q, rfl, hq⟩
  · exact spends_throw

theorem ordered_compileTerm (h : Ranks key t) : (compileTerm r t).Spends s fun _ c =>
    ∃ q, c = .query q ∧ q.Ordered (r.Clear t.shown.1) (Once key t.shown.2) := by
  cases h
  case rows h  =>
    exact (takes_compileTerm hk hr hw h).imp fun _ _ _ ⟨q, hc, hq⟩ => ⟨q, hc, hq.toOrdered⟩
  case total h =>
    rw [shown_total]
    exact (totals_compileTerm hk hr hw h).imp fun _ _ _ ⟨q, hc, hq, _⟩ => ⟨q, hc, hq⟩
  case average n m k d v w u ty ty' ty'' hd h =>
    refine (average_compileTerm hk hr hw hd h).imp fun _ _ _ ⟨q, hc, hq⟩ => ⟨q, hc, ?_⟩
    refine ⟨hq.orderBy, fun ho => hq.domain ?_, fun ho => hq.codomain ?_⟩
    · simpa [shown_app, Op.shown] using ho
    · have hs : (Term.app n .composition [d, .app m .product [.app k .aggregation [v, w] ty'', u] ty']
          ty).shown.2 = d.shown.2 ++ v.shown.2 ++ u.shown.2 := by
        simp [shown_app, Op.shown]
      exact ((hs ▸ ho).part hk hr (h.key_mem hk)).1

end Compile

-- What is left out of a query that stores nothing twice changes neither its order nor its marks.
theorem gives_compile {s' : Session} (h : (compile r t).Gives s q s') : ∃ q' s₁ s₂,
    (compileTerm r t).Gives s₁ (.query q') s₂ ∧ q'.toBody.Resembles q.toBody := by
  simp only [compile, gives_bind, gives_modify] at h
  obtain ⟨_, s₁, rfl, c, s₂, hc, q', s₃, hq, h⟩ := h
  obtain rfl : c = .query q' := by
    cases c <;> simp [Compiled.asQuery] at hq
    rw [hq.1]
  refine ⟨q', _, s₂, hc, ?_⟩
  split at h
  · exact Query.resembles_dedup (gives_ofExcept.mp h).1
  · rw [(gives_pure.mp h).1]
    exact .refl _

theorem ordered_compile {s' : Session} (hk : key.Own) (hr : r.key = some key)
    (hw : r.switches.freezeAll = false) (ht : Ranks key t) (h : (compile r t).Gives s q s') :
    q.orderBy = some keyAlias ∧ (Once key (t.shown.1 ++ t.shown.2) → q.marks = 1) := by
  have ⟨q', s₁, s₂, hg, hs⟩ := gives_compile h
  have ⟨p, hp, ho⟩ := (ordered_compileTerm hk hr hw ht).gives hg
  obtain rfl := Compiled.query.inj hp
  refine ⟨hs.orderBy.trans ho.orderBy, fun h => hs.marks_eq.trans ?_⟩
  replace h : Once key (t.shown.1 ++ t.shown.2 ++ []) := by simpa using h
  have ⟨hc, hd, _⟩ := h.part hk hr (ht.key_mem hk)
  exact ho.marks_eq hd hc

theorem unordered_compile {s' : Session} (hc : r.Clear t.kinds) (h : (compile r t).Gives s q s') :
    q.orderBy = none ∧ q.marks = 0 := by
  have ⟨q', s₁, s₂, hg, hs⟩ := gives_compile h
  have ht : q'.Traces _ _ _ s₂.parts := (traced_compileTerm r s₁ t).gives hg
  refine ⟨hs.orderBy.trans (ht.unordered hc), hs.marks_eq.trans (ht.marks_eq ?_ ?_)⟩
  · exact hc.mono (shown_subset_kinds t).1
  · exact hc.mono (shown_subset_kinds t).2

end Sql
end Inquiry
