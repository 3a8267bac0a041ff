import Mathlib
import Inquiry.Proofs.Sql.Ordering
import Inquiry.Proofs.Sql.Recoding

/-!
Terms that differ in the codes of their constants are compiled in parallel: every operation on queries
is done alike, so the queries differ in the codes only.
-/

namespace Inquiry

open List Term

namespace Text

/-- Texts are filled in as they are, and there is something between any two of them. -/
def isSpaced : List Char → Bool
  | []                 => true
  | '%' :: 's' :: rest => rest.head? != some '%' && isSpaced rest
  | '%' :: _           => false
  | c :: rest          => c != quoteMark && isSpaced rest

theorem agree_fill {ι : Type} {K : Coding ι} {cs : List Char} {args args' : List String}
    (hs : isSpaced cs) (h : Forall₂ K.Like args args') :
    Agree (fun s s' => K.Like s s' ∧ (cs.head? ≠ some '%' → K.Led s s')) (fill cs args)
      (fill cs args') := by
  fun_induction isSpaced cs generalizing args args'
  case case1 =>
    cases h
    case nil =>
      have hempty : K.Led "" "" := Coding.led_self (by decide)
      exact .ok ⟨hempty.like, fun _ => hempty⟩
    case cons => exact .error
  case case2 rest ih =>
    obtain ⟨hl, hs⟩ := Bool.and_eq_true_iff.mp hs
    cases h
    case nil =>
      rw [fill]
      · split <;> exact .error
      · decide
    case cons ha h =>
      refine (ih hs h).map fun s s' hs => ⟨Coding.like_append ha (hs.2 (by simpa using hl)), ?_⟩
      simp
  case case3 => cases hs
  case case4 c rest _ hc ih =>
    obtain ⟨hq, hs⟩ := Bool.and_eq_true_iff.mp hs
    rw [fill, fill]
    · refine (ih hs h).map fun s s' hs => ?_
      have hc : Unquoted c.toString := by
        simpa [Unquoted] using (bne_iff_ne.mp hq).symm
      have := Coding.led_word hc (by simp) hs.1
      exact ⟨this.like, fun _ => this⟩
    all_goals exact hc

theorem Coding.formats_of_isSpaced {ι : Type} {K : Coding ι} {between : String}
    (h : isSpaced between.toList) : K.Formats between :=
  fun _ _ ha => (agree_fill h ha).imp fun _ _ h => h.1

end Text

namespace Term

def constantCode? : Term → Option String
  | kind h .. => if h.cls == .constant then h.code else none
  | _         => none

def recode (f : String → String) : Term → Term
  | app n op args ty => app n op (recodeAll args) ty
  | kind h ty d c s  =>
    kind (if h.cls == .constant then { h with code := h.code.map f } else h) ty d c s
  | t                => t
where
  recodeAll : List Term → List Term
    | []      => []
    | t :: ts => t.recode f :: recodeAll ts

end Term

namespace Sql

open SessionM Text

variable {ι : Type} {K : Coding ι}

inductive Compiled.Recoded (K : Coding ι) : Compiled → Compiled → Prop
  | query {q q'} : q.Recoded K q' → Recoded K (.query q) (.query q')
  | operator {before between} : Unquoted before → K.Formats between →
    Recoded K (.operator before between) (.operator before between)
  | projection {dims size} : Recoded K (.projection dims size) (.projection dims size)
  | nothing : Recoded K .nothing .nothing

namespace Compiled.Recoded

theorem asQuery {c c' : Compiled} (h : c.Recoded K c') :
    c.asQuery.Parallel (Query.Recoded K) c'.asQuery := by
  cases h
  case query h => exact parallel_pure h
  all_goals exact parallel_throw

theorem freezeGrouped (hK : ∀ n : Nat, K.Avoids ("tmp" ++ toString n)) (sw : Switches)
    {c c' : Compiled} (h : c.Recoded K c') :
    (freezeGrouped sw c).Parallel (Recoded K) (freezeGrouped sw c') := by
  cases h
  case query h =>
    rw [Sql.freezeGrouped, Sql.freezeGrouped, h.body.groups.groupsRows_eq, h.body.distinct]
    split
    · exact (h.freeze hK).map fun _ _ h => .query h
    · exact parallel_pure (.query h)
  case operator hb hf => exact parallel_pure (.operator hb hf)
  case projection     => exact parallel_pure .projection
  case nothing        => exact parallel_pure .nothing

end Compiled.Recoded

theorem parallel_get {R : α → β → Prop} {xs : List α} {ys : List β} (h : Forall₂ R xs ys)
    (i : Nat) : (get xs i).Parallel R (get ys i) := by
  refine parallel_ofExcept ?_
  unfold Sequence.get Sequence.at?
  rw [h.length_eq]
  cases Sequence.place? ys.length i
  case none => exact .error
  case some k =>
    have hk := rel_getElem? h k
    dsimp only [Option.bind_some]
    generalize xs[k]? = x, ys[k]? = y at hk
    cases hk
    case none      => exact .error
    case some hk => exact .ok hk

namespace Query.Recoded

variable {lhs lhs' rhs rhs' q q' : Query}

theorem pickColumns (dims : List Nat) (h : q.Recoded K q') :
    (pickColumns dims q).Parallel (Recoded K) (pickColumns dims q') := by
  have same : Forall₂ (· = ·) dims dims := forall₂_refl dims
  refine .bind (R := Forall₂ (Item.Recoded K)) (Parallel.mapM same ?_) fun is ks his => ?_
  · rintro i _ rfl
    exact parallel_get h.body.codomain i
  refine (parallel_ofExcept (Agree.mapM his fun _ _ h => h.asName)).bind fun as as' has => ?_
  obtain rfl : as = as' := forall₂_eq_eq_eq ▸ has.imp fun _ _ h => h.1
  split
  · exact parallel_pure { h with
      body := { h.body with codomain := his, orderBy := rfl, orderDir := rfl, key := by simp } }
  · exact parallel_pure { h with body := { h.body with codomain := his } }

theorem isKey {i k : Item} (h : i.Recoded K k) : Agree (· = ·) (isKey i) (isKey k) := by
  refine h.name.bind fun n n' hn => ?_
  have heq : (n == keyAlias) = (n' == keyAlias) := hn.beq_eq (Coding.led_self (by decide))
  rw [heq]
  split
  · exact .ok rfl
  · exact h.asName.bind fun _ _ ha => .ok (by rw [ha.1])

theorem clearAlias {i k : Item} {is ks : List Item} (h : i.Recoded K k)
    (hs : Forall₂ (Item.Recoded K) is ks) :
    Forall₂ (Item.Recoded K) (clearAlias i is) (clearAlias k ks) := by
  rw [Sql.clearAlias, Sql.clearAlias, forall₂_map_left_iff, forall₂_map_right_iff]
  refine hs.imp fun j l hj => ?_
  rw [hj.part_eq, h.part_eq]
  split
  · exact hj.withAlias (by decide)
  · exact hj

theorem applyOperator {before between : String} (hb : Unquoted before) (hf : K.Formats between)
    (h : q.Recoded K q') :
    (applyOperator before between q).Parallel (Recoded K) (applyOperator before between q') := by
  have made {args args' : List Item} (a : String) {dir dir' : String}
      (hargs : Forall₂ (Item.Recoded K) args args') (ha : Unquoted a) (hd : dir = dir') :
      (do return { q with codomain := [.expr (← newPart) args a before between], orderDir := dir } :
        SessionM Query).Parallel (Recoded K)
      (do return { q' with
            codomain := [.expr (← newPart) args' a before between], orderDir := dir' }) :=
    .same_bind fun n => parallel_pure { h with
      body := { h.body with codomain := .cons (.expr hargs ha hb hf) .nil, orderDir := hd } }
  refine (Item.Recoded.copies h.body.codomain).bind fun args args' hargs => ?_
  have hordered : q'.orderBy.isSome = q.orderBy.isSome := by rw [h.body.orderBy]
  rw [hordered]
  split
  case isFalse => exact made "" hargs (by decide) h.body.orderDir
  case isTrue =>
    refine (parallel_get hargs 0).bind fun i k hi => ?_
    refine (parallel_ofExcept (isKey hi)).bind fun b _ hb => hb ▸ ?_
    split
    · exact made keyAlias (clearAlias hi hargs) (by decide) h.body.orderDir
    · refine (parallel_get hargs 1).bind fun j l hj => ?_
      refine (parallel_ofExcept (isKey hj)).bind fun b _ hb => hb ▸ ?_
      split
      · exact made keyAlias (clearAlias hj hargs) (by decide) (congrArg reverseOrder h.body.orderDir)
      · exact made "" hargs (by decide) h.body.orderDir

theorem outerOrder_eq (hl : lhs.Recoded K lhs') (hr : rhs.Recoded K rhs') :
    outerOrder lhs rhs = outerOrder lhs' rhs' := by
  rw [outerOrder, outerOrder, hl.body.orderBy, hl.body.orderDir, hr.body.orderBy, hr.body.orderDir]

theorem unquoted_outerOrder (hl : lhs.Recoded K lhs') (hr : rhs.Recoded K rhs') :
    ∀ s ∈ (outerOrder lhs rhs).1, Unquoted s := by
  unfold outerOrder
  split
  · exact hl.body.key
  · exact hr.body.key

theorem composed {js js' : List Join} {is ks : List Item} (hl : lhs.Recoded K lhs')
    (hr : rhs.Recoded K rhs') (hj : Forall₂ (Join.Recoded K) js js')
    (hi : Forall₂ (Item.Recoded K) is ks) :
    (lhs.composed rhs js is).Parallel (Recoded K) (lhs'.composed rhs' js' ks) := by
  rw [Query.composed, Query.composed, ← outerOrder_eq hl hr]
  exact Query.recoded_create
    { hr.body with
      codomain := hi, joins := hj
      wheres := rel_append hl.body.wheres hr.body.wheres
      groups := .by .nil, distinct := rfl, orderBy := rfl, orderDir := rfl
      key := unquoted_outerOrder hl hr }
    (rel_append hr.frozen hl.frozen)

theorem composedAs {table a a' : String} {own own' : List Join} (hl : lhs.Recoded K lhs')
    (hr : rhs.Recoded K rhs') (ht : K.Avoids table) (hne : table ≠ "") (ha : K.Rooted a a')
    (hown : Forall₂ (Join.Recoded K) own own') :
    (lhs.composedAs rhs table a own).Parallel (Recoded K) (lhs'.composedAs rhs' table a' own') := by
  refine (parallel_ofExcept (Agree.mapM hl.body.joins fun _ _ h =>
    h.renameAlias ht hne ha)).bind fun outer outer' ho => ?_
  refine (parallel_ofExcept (Item.Recoded.renameTables ht hne ha hl.body.codomain)).bind
    fun is ks hi => ?_
  exact hl.composed hr (rel_append (rel_append hr.body.joins hown) ho) hi

theorem composeOne (hl : lhs.Recoded K lhs') (hr : rhs.Recoded K rhs') :
    (composeOne lhs rhs).Parallel (Recoded K) (composeOne lhs' rhs') := by
  rw [Sql.composeOne, Sql.composeOne, ← hl.body.source]
  cases hs : lhs.source
  case none => exact parallel_throw
  case some source =>
    dsimp only
    have hsource := hl.body.stored source hs
    split
    case isTrue => exact hl.composed hr hr.body.joins hl.body.codomain
    case isFalse hne =>
      have renamed {a a' : String} {own own' : List Join} (ha : K.Rooted a a')
          (hown : Forall₂ (Join.Recoded K) own own') :=
        hl.composedAs hr hsource.table (by simpa using hne) ha hown
      refine (parallel_get hr.body.codomain 0).bind fun _ _ h => h.bare.bind fun cod cod' hc => ?_
      refine (parallel_get hl.body.domain 0).bind fun _ _ h => h.bare.bind fun dom dom' hd => ?_
      refine (parallel_ofExcept hc.table).bind fun t t' ht => ?_
      refine (parallel_ofExcept (Item.Recoded.text _ hc)).bind fun x x' hx => ?_
      refine (parallel_ofExcept (Item.Recoded.text _ hd)).bind fun y y' hy => ?_
      simp only [pure_bind]
      rw [hx.beq_eq hy]
      split
      · exact renamed ht .nil
      have joined {a a' : String} {dom dom' : Item} (hd : dom.Recoded K dom') (ha : K.Rooted a a') :
          (Join.create source.table a [(dom, cod)]).Parallel (Join.Recoded K)
            (Join.create source.table a' [(dom', cod')]) :=
        Join.recoded_create hsource.recoded.table ha (.cons ⟨hd, hc⟩ .nil)
      split
      · exact (joined hd (Coding.rooted_self (by decide))).bind fun _ _ hj =>
          renamed hsource.recoded.table (.cons hj .nil)
      · refine (parallel_ofExcept hc.name).bind fun n n' hn => ?_
        have ha := Coding.rooted_append ht hn
        cases hd
        case column hn hm =>
          exact (joined (.column ha hn hm) ha).bind fun _ _ hj => renamed ha (.cons hj .nil)
        case expr hargs hm hb hf =>
          exact (joined (.expr hargs hm hb hf) ha).bind fun _ _ hj => renamed ha (.cons hj .nil)

theorem composeMany (hK : ∀ n : Nat, K.Avoids ("tmp" ++ toString n)) (hl : lhs.Recoded K lhs')
    (hr : rhs.Recoded K rhs') :
    (composeMany lhs rhs).Parallel (Recoded K) (composeMany lhs' rhs') := by
  refine (hl.freeze hK).bind fun lhs lhs' hl => (hr.freeze hK).bind fun rhs rhs' hr => ?_
  refine .bind (R := Forall₂ (Join.PairRecoded K)) ?_ fun ps ps' hps => ?_
  · refine Parallel.mapM (rel_zip hl.body.domain hr.body.codomain) fun p p' hp => ?_
    exact hp.1.bare.bind fun d d' hd => hp.2.bare.bind fun c c' hc => parallel_pure ⟨hd, hc⟩
  rw [← hl.body.source, ← outerOrder_eq hl hr]
  cases hs : lhs.source
  case none => exact parallel_throw
  case some source =>
    have hsource := (hl.body.stored source hs).recoded.table
    refine (Join.recoded_create hsource (Coding.rooted_self (by decide)) hps).bind fun j j' hj => ?_
    exact Query.recoded_create
      { hr.body with
        codomain := hl.body.codomain, joins := .cons hj .nil, wheres := .nil, groups := .by .nil
        distinct := rfl, orderBy := rfl, orderDir := rfl, key := unquoted_outerOrder hl hr }
      (rel_append hr.frozen hl.frozen)

end Query.Recoded

section Operations

variable {l l' r r' : Compiled} {cs cs' : List Compiled} {qs qs' : List Query}

theorem recoded_query {b b' : Body} {fs fs' : List Frozen} (h : b.Recoded K b')
    (hf : Forall₂ (Frozen.Recoded K) fs fs') :
    (Compiled.query <$> Query.create b fs).Parallel (Compiled.Recoded K)
      (Compiled.query <$> Query.create b' fs') :=
  (Query.recoded_create h hf).map fun _ _ h => .query h

theorem recoded_composeTwo (hK : ∀ n : Nat, K.Avoids ("tmp" ++ toString n)) (hl : l.Recoded K l')
    (hr : r.Recoded K r') :
    (composeTwo l r).Parallel (Compiled.Recoded K) (composeTwo l' r') := by
  have hq := hr.asQuery
  have queries {p p' : Query} (hp : p.Recoded K p') : (do
      if p.domain.length == 1 then Compiled.query <$> composeOne p (← r.asQuery)
      else .query <$> composeMany p (← r.asQuery)).Parallel (Compiled.Recoded K) (do
      if p'.domain.length == 1 then Compiled.query <$> composeOne p' (← r'.asQuery)
      else .query <$> composeMany p' (← r'.asQuery)) := by
    rw [hp.body.domain.length_eq]
    split
    · exact hq.bind fun _ _ h => (hp.composeOne h).map fun _ _ h => .query h
    · exact hq.bind fun _ _ h => (hp.composeMany hK h).map fun _ _ h => .query h
  cases hr
  case projection => exact parallel_throw
  all_goals
    cases hl
    case query hl          => exact queries hl
    case projection dims _ => exact hq.bind fun _ _ h => (h.pickColumns dims).map fun _ _ h => .query h
    case operator hb hf    => exact hq.bind fun _ _ h => (h.applyOperator hb hf).map fun _ _ h => .query h
    case nothing           => exact parallel_throw

theorem recoded_compose (hK : ∀ n : Nat, K.Avoids ("tmp" ++ toString n))
    (h : Forall₂ (Compiled.Recoded K) cs cs') :
    (compose cs).Parallel (Compiled.Recoded K) (compose cs') := by
  have folded {c c' : Compiled} {cs cs' : List Compiled} (hc : c.Recoded K c')
      (h : Forall₂ (Compiled.Recoded K) cs cs') :
      (composeReversed.foldLeft c cs).Parallel (Compiled.Recoded K)
        (composeReversed.foldLeft c' cs') := by
    induction h generalizing c c'
    case nil         => exact parallel_pure hc
    case cons h _ ih => exact (recoded_composeTwo hK h hc).bind fun _ _ => ih
  have h := rel_reverse h
  unfold compose
  generalize cs.reverse = cs, cs'.reverse = cs' at h
  cases h
  case nil => exact parallel_throw
  case cons hr h =>
    cases h
    case nil       => exact parallel_pure hr
    case cons hl h => exact (recoded_composeTwo hK hl hr).bind fun _ _ hc => folded hc h

-- Joins that are still to be created: their tables and conditions.
def JoinsRecoded (K : Coding ι) : List (String × List (Item × Item)) →
    List (String × List (Item × Item)) → Prop :=
  Forall₂ fun p q => K.Rooted p.1 q.1 ∧ Forall₂ (Join.PairRecoded K) p.2 q.2

theorem recoded_joinOn {joins joins' : List (String × List (Item × Item))} {t t' : String}
    {p p' : Item × Item} (h : JoinsRecoded K joins joins') (ht : K.Rooted t t')
    (hp : Join.PairRecoded K p p') : JoinsRecoded K (joinOn joins t p) (joinOn joins' t' p') := by
  induction h
  case nil => exact .cons ⟨ht, .cons hp .nil⟩ .nil
  case cons j j' js js' hj hjs ih =>
    obtain ⟨u, ps⟩ := j
    obtain ⟨u', ps'⟩ := j'
    have heq : (u == t) = (u' == t') := hj.1.beq_eq ht
    rw [joinOn, joinOn, heq]
    split
    · exact .cons ⟨hj.1, rel_append hj.2 (.cons hp .nil)⟩ hjs
    · exact .cons hj ih

theorem recoded_joinDomains {is ks : List Item} {joins joins' : List (String × List (Item × Item))}
    {q q' : Query} (hi : Forall₂ (Item.Recoded K) is ks) (hj : JoinsRecoded K joins joins')
    (hq : q.Recoded K q') :
    (joinDomains is joins q).Parallel (JoinsRecoded K) (joinDomains ks joins' q') := by
  refine Parallel.foldlM (rel_zip hq.body.domain hi) hj fun js js' p p' hj hp => ?_
  refine (parallel_ofExcept hp.1.table).bind fun t t' ht => ?_
  refine (parallel_ofExcept hp.2.table).bind fun u u' hu => ?_
  rw [ht.beq_eq hu]
  split
  · exact parallel_pure hj
  · exact hp.2.bare.bind fun d d' hd => hp.1.bare.bind fun o o' ho =>
      parallel_pure (recoded_joinOn hj ht ⟨hd, ho⟩)

theorem lastOrder_eq (h : Forall₂ (Query.Recoded K) qs qs') : lastOrder qs = lastOrder qs' := by
  have aux (acc : Option String × String) :
      qs.foldl (fun acc q => if q.orderBy.isSome then (q.orderBy, q.orderDir) else acc) acc =
        qs'.foldl (fun acc q => if q.orderBy.isSome then (q.orderBy, q.orderDir) else acc) acc := by
    induction h generalizing acc
    case nil => rfl
    case cons h _ ih => rw [foldl_cons, foldl_cons, h.body.orderBy, h.body.orderDir, ih]
  exact aux _

theorem unquoted_lastOrder (h : Forall₂ (Query.Recoded K) qs qs') :
    ∀ s ∈ (lastOrder qs).1, Unquoted s := by
  obtain ⟨hn, _⟩ | ⟨q, hq, ho, _⟩ := lastOrder_cases qs
  · simp [hn]
  · obtain ⟨q', _, hq⟩ := exists_of_mem_right h.flip hq
    exact ho ▸ hq.body.key

variable (hK : ∀ n : Nat, K.Avoids ("tmp" ++ toString n)) (sw : Switches)
include hK

theorem recoded_freezeAll (h : Forall₂ (Compiled.Recoded K) cs cs') :
    (cs.mapM (freezeGrouped sw)).Parallel (Forall₂ (Compiled.Recoded K))
      (cs'.mapM (freezeGrouped sw)) :=
  Parallel.mapM h fun _ _ h => h.freezeGrouped hK sw

theorem recoded_compileProduct (h : Forall₂ (Compiled.Recoded K) cs cs') :
    (compileProduct sw cs).Parallel (Compiled.Recoded K) (compileProduct sw cs') := by
  have hall := h
  -- A product that starts with a projection is one; all others are products of queries.
  rcases h with _ | ⟨_ | _ | _ | _, hs⟩
  case cons.projection dims size =>
    refine .bind (R := (· = ·)) ?_ fun dims _ hd => hd ▸ parallel_pure .projection
    refine .mono (Parallel.mapM hall (S := (· = ·)) fun c c' h => ?_) fun _ _ h =>
      forall₂_eq_eq_eq ▸ h
    cases h
    case projection dims _ => exact parallel_refl _
    all_goals exact parallel_throw
  all_goals
    refine (recoded_freezeAll hK sw hall).bind fun cs cs' h => ?_
    refine (Parallel.mapM h fun _ _ h => h.asQuery).bind fun qs qs' hqs => ?_
    refine (parallel_get hqs 0).bind fun first first' hfirst => ?_
    refine (Parallel.foldlM (forall₂_tail hqs) .nil fun _ _ _ _ hj hq =>
      recoded_joinDomains hfirst.body.domain hj hq).bind fun new new' hnew => ?_
    refine (Parallel.mapM hnew fun _ _ h =>
      Join.recoded_create h.1 (Coding.rooted_self (by decide)) h.2).bind fun js js' hjs => ?_
    rw [← lastOrder_eq hqs]
    exact recoded_query
      { hfirst.body with
        codomain := rel_flatMap hqs fun _ _ h => h.body.codomain
        joins := rel_append hjs (rel_flatMap hqs fun _ _ h => h.body.joins)
        wheres := rel_flatMap hqs fun _ _ h => h.body.wheres
        distinct := rfl, orderBy := rfl, orderDir := rfl, key := unquoted_lastOrder hqs }
      (rel_flatMap hqs fun _ _ h => h.frozen)

omit hK in
theorem recoded_pairConds : (qs : List Query) → {qs' : List Query} →
    Forall₂ (Query.Recoded K) qs qs' →
      (pairConds qs).Parallel (Forall₂ (Cond.Recoded K)) (pairConds qs')
  | [], _, h => by
    cases h
    exact parallel_pure .nil
  | [_], _, h => by
    obtain _ | ⟨_, _ | _⟩ := h
    exact parallel_pure .nil
  | l :: r :: qs, _, h => by
    obtain _ | ⟨hl, _ | ⟨hr, h⟩⟩ := h
    refine .bind (R := Forall₂ (Cond.Recoded K)) ?_ fun cs cs' hcs => ?_
    · exact Parallel.mapM (rel_zip hl.body.codomain hr.body.codomain) fun p p' hp =>
        .same_bind fun n => parallel_pure ⟨rfl, hp.1, hp.2⟩
    · exact (recoded_pairConds qs h).bind fun ds ds' hds => parallel_pure (rel_append hcs hds)

theorem recoded_compileInclusion (h : Forall₂ (Compiled.Recoded K) cs cs') :
    (compileInclusion sw cs).Parallel (Compiled.Recoded K) (compileInclusion sw cs') := by
  refine (recoded_freezeAll hK sw h).bind fun cs cs' h => ?_
  refine (Parallel.mapM h fun _ _ h => h.asQuery).bind fun qs qs' hqs => ?_
  refine (parallel_get hqs 0).bind fun first first' hfirst => ?_
  refine .bind (R := Forall₂ (Forall₂ (Join.Recoded K))) ?_ fun js js' hjs => ?_
  · refine Parallel.mapM (forall₂_tail hqs) fun q q' hq => ?_
    refine (parallel_get hq.body.domain 0).bind fun dim dim' hdim => ?_
    refine (parallel_get hfirst.body.domain 0).bind fun own own' hown => ?_
    refine (parallel_ofExcept hdim.table).bind fun t t' ht => ?_
    refine (parallel_ofExcept hown.table).bind fun u u' hu => ?_
    rw [ht.beq_eq hu]
    split
    · exact parallel_pure .nil
    · refine hown.bare.bind fun o o' ho => hdim.bare.bind fun d d' hd => ?_
      exact (Join.recoded_create ht (Coding.rooted_self (by decide)) (.cons ⟨ho, hd⟩ .nil)).bind
        fun j j' hj => parallel_pure (.cons hj .nil)
  · refine (Item.Recoded.copies hfirst.body.domain).bind fun cod cod' hcod => ?_
    refine (recoded_pairConds qs hqs).bind fun conds conds' hconds => ?_
    exact recoded_query
      { hfirst.body with
        codomain := hcod
        joins := rel_append (rel_flatten hjs)
          (rel_flatMap hqs fun _ _ h => h.body.joins)
        wheres := rel_append hfirst.body.wheres hconds
        groups := .by .nil, distinct := rfl, orderBy := rfl, orderDir := rfl, key := by simp }
      (rel_flatMap hqs fun _ _ h => h.frozen)

theorem recoded_compileInverse (h : Forall₂ (Compiled.Recoded K) cs cs') :
    (compileInverse sw cs).Parallel (Compiled.Recoded K) (compileInverse sw cs') := by
  refine (recoded_freezeAll hK sw h).bind fun cs cs' h => ?_
  refine (parallel_get h 0).bind fun c c' hc => hc.asQuery.bind fun q q' hq => ?_
  refine (Item.Recoded.copies hq.body.codomain).bind fun dom dom' hdom => ?_
  refine (Item.Recoded.copies hq.body.codomain).bind fun cod cod' hcod => ?_
  exact recoded_query
    { hq.body with domain := hdom, codomain := hcod, groups := .by .nil, distinct := rfl } hq.frozen

theorem recoded_compileAggregation (h : Forall₂ (Compiled.Recoded K) cs cs') :
    (compileAggregation sw cs).Parallel (Compiled.Recoded K) (compileAggregation sw cs') := by
  refine (recoded_freezeAll hK sw h).bind fun cs cs' h => ?_
  refine (parallel_get h 1).bind fun c c' hc => hc.asQuery.bind fun w w' hw => ?_
  refine (parallel_get h 0).bind fun c c' hc => hc.asQuery.bind fun v v' hv => ?_
  refine (parallel_get hv.body.domain 0).bind fun vDim vDim' hvDim => ?_
  refine (parallel_ofExcept hvDim.table).bind fun t t' ht => ?_
  -- the branches differ in the joins that they go on with
  extract_lets make make'
  have hmake {js js' : List Join} (hjs : Forall₂ (Join.Recoded K) js js') :
      (make js).Parallel (Compiled.Recoded K) (make' js') := by
    refine .bind (R := Forall₂ (Item.Recoded K)) ?_ fun cod cod' hcod => ?_
    · refine Parallel.mapM hv.body.codomain fun i k hi => hi.bare.bind fun col col' hcol => ?_
      rw [← hi.asName?_eq]
      exact .same_bind fun n => parallel_pure
        (.expr (.cons hcol .nil) hi.unquoted_getD (by decide) (Coding.formats_of_isSpaced (by decide)))
    have hgrouped := Agree.filterM hw.body.codomain fun i k hi =>
      hi.table.bind fun _ _ ht => .ok (congrArg (! ·) ht.isEmpty_eq)
    refine (parallel_ofExcept hgrouped).bind fun g g' hg => ?_
    refine (Parallel.mapM hg fun _ _ h => h.bare).bind fun cols cols' hcols => ?_
    have hgroups : Grouping.Recoded K (if cols.isEmpty then .whole else .by cols)
        (if cols'.isEmpty then .whole else .by cols') := by
      rw [isEmpty_eq_of_forall₂ hcols]
      split
      · exact .whole
      · exact .by hcols
    exact recoded_query
      { hw.body with
        domain := hw.body.codomain, codomain := hcod
        joins := rel_append (rel_append hjs hv.body.joins) hw.body.joins
        wheres := rel_append hv.body.wheres hw.body.wheres
        groups := hgroups, distinct := rfl
        orderBy := hv.body.orderBy, orderDir := hv.body.orderDir, key := hv.body.key }
      (rel_append hv.frozen hw.frozen)
  rw [ht.isEmpty_eq]
  split
  · exact hmake .nil
  refine (parallel_get hw.body.domain 0).bind fun wDim wDim' hwDim => ?_
  refine (parallel_ofExcept hwDim.table).bind fun u u' hu => ?_
  rw [hu.isEmpty_eq, ht.beq_eq hu]
  split
  · exact hmake .nil
  · refine hvDim.bare.bind fun x x' hx => hwDim.bare.bind fun y y' hy => ?_
    exact (Join.recoded_create ht (Coding.rooted_self (by decide)) (.cons ⟨hx, hy⟩ .nil)).bind
      fun j j' hj => hmake (.cons hj .nil)

end Operations

section Kinds

variable {r : Setting} {h : KindHead} {t : Term} {f : String → String}

theorem recoded_storedColumn {table column asName dir : String} {key : Option String}
    (ht : K.Avoids table) (hc : Unquoted column) (ha : Unquoted asName)
    (hk : ∀ s ∈ key, Unquoted s) :
    (storedColumn table column asName key dir).Parallel (Query.Recoded K)
      (storedColumn table column asName key dir) := by
  have hid : Unquoted (identifierColumn table) := unquoted_append.mpr ⟨ht.unquoted, by decide⟩
  have htable : K.Rooted table table := Coding.rooted_self ht.unquoted
  refine (Item.recoded_create htable (Coding.single_self hid) (by decide)).bind fun i k hi => ?_
  refine (Item.recoded_create htable (Coding.single_self hc) ha).bind fun j l hj => ?_
  exact .same_bind fun n => Query.recoded_create
    { domain := .cons hi .nil, codomain := .cons hj .nil, source := rfl
      stored := fun s hs => Option.some.inj hs ▸ ⟨ht, (by decide : Unquoted "")⟩
      joins := .nil, wheres := .nil, groups := .by .nil, distinct := rfl, orderBy := rfl
      orderDir := rfl, key := hk } .nil

/-- The stored tables that a kind is read from. -/
def storedTables (r : Setting) : Term → List String
  | .kind h _ d .. =>
    if h.cls == .variable then tableOf r h.name :: (d.bind head?).toList.map (·.name)
    else if h.cls.isRelation then [tableOf r (underscored h.name)]
    else []
  | _ => []

theorem recoded_compileImmediate {value : String} (isKey : Bool)
    (ht : ∀ h ty d c s, t.domain? = .ok (some (.kind h ty d c s)) → K.Avoids h.name)
    (hv : K.Single value value) :
    (compileImmediate r t value isKey).Parallel (Query.Recoded K)
      (compileImmediate r t value isKey) := by
  have hkey : Unquoted (if isKey then keyAlias else "") := by
    split <;> decide
  have made {is ks : List Item} {source : Option Source}
      (hi : Forall₂ (Item.Recoded K) is ks) (hs : ∀ s ∈ source, s.Stored K) : (do
      let cod ← Item.create "" value (if isKey then keyAlias else "")
      Query.create
        { domain := is, codomain := [cod], source
          orderBy := if isKey then some keyAlias else none, orderDir := r.order } []).Parallel
        (Query.Recoded K) (do
      let cod ← Item.create "" value (if isKey then keyAlias else "")
      Query.create
        { domain := ks, codomain := [cod], source
          orderBy := if isKey then some keyAlias else none, orderDir := r.order } []) := by
    refine (Item.recoded_create (Coding.rooted_self (by decide)) hv hkey).bind fun j l hj => ?_
    refine Query.recoded_create
      { domain := hi, codomain := .cons hj .nil, source := rfl, stored := hs, joins := .nil
        wheres := .nil, groups := .by .nil, distinct := rfl, orderBy := rfl, orderDir := rfl
        key := ?_ } .nil
    split
    · exact fun s hs => Option.some.inj hs ▸ (by decide : Unquoted keyAlias)
    · simp
  refine (parallel_ofExcept (Agree.of_eq rfl).results).bind fun d d' hd => ?_
  obtain ⟨hd, _, rfl⟩ := hd
  obtain _ | (⟨h, ty, d, c, s⟩ | _ | _ | _ | _ | _) := d
  case some.kind =>
    have htable := ht h ty d c s hd
    dsimp only
    split
    · have hid : Unquoted (identifierColumn h.name) :=
        unquoted_append.mpr ⟨htable.unquoted, by decide⟩
      simp only [pure_bind]
      refine (Item.recoded_create (Coding.rooted_self htable.unquoted) (Coding.single_self hid)
        (by decide)).bind fun i k hi => .same_bind fun n => made (.cons hi .nil) ?_
      exact fun s hs => Option.some.inj hs ▸ ⟨htable, (by decide : Unquoted "")⟩
    · exact made .nil (by simp)
  all_goals exact made .nil (by simp)

-- The names that a kind is read by are apart from the codes, and its code is written as a literal.
structure Recodable (K : Coding ι) (r : Setting) (f : String → String) (k : Term) : Prop where
  name   : ∀ h ∈ k.head?, h.cls ≠ .constant → Unquoted (underscored h.name)
  tables : ∀ table ∈ storedTables r k, K.Avoids table
  code   : ∀ c ∈ k.constantCode?, K.Single ("'" ++ underscored c ++ "'") ("'" ++ underscored (f c) ++ "'")

theorem recoded_compileConstant {h' : KindHead} (hs : K.Single "'*'" "'*'")
    (hc : Option.Rel (fun c c' => K.Single ("'" ++ underscored c ++ "'") ("'" ++ underscored c' ++ "'"))
      h.code h'.code) :
    (compileConstant h).Parallel (Query.Recoded K) (compileConstant h') := by
  rw [compileConstant, compileConstant]
  generalize h.code = c, h'.code = c' at hc
  cases hc
  case none => exact parallel_throw
  case some hc =>
    have hempty : K.Rooted "" "" := Coding.rooted_self (by decide)
    refine (Item.recoded_create hempty hs (by decide)).bind fun i k hi => ?_
    refine (Item.recoded_create hempty hc (by decide)).bind fun j l hj => ?_
    exact .same_bind fun n => Query.recoded_create
      { domain := .cons hi .nil, codomain := .cons hj .nil, source := rfl
        stored := fun s hs => Option.some.inj hs ▸ ⟨Coding.avoids_empty, (by decide : Unquoted "")⟩
        joins := .nil, wheres := .nil, groups := .by .nil, distinct := rfl, orderBy := rfl
        orderDir := rfl, key := by simp } .nil

theorem recoded_compileVariable {ty d c cs : Option Term} (hs : K.Single "'*'" "'*'")
    (hv : h.cls = .variable) (ha : Recodable K r f (.kind h ty d c cs)) :
    (compileVariable r (.kind h ty d c cs) h).Parallel (Query.Recoded K)
      (compileVariable r (.kind h ty d c cs) h) := by
  have htables := ha.tables
  simp only [storedTables, hv, beq_self_eq_true, if_true, forall_mem_cons] at htables
  have immediate {value : String} (isKey : Bool) (hs : K.Single value value) :
      (compileImmediate r (.kind h ty d c cs) value isKey).Parallel (Query.Recoded K)
        (compileImmediate r (.kind h ty d c cs) value isKey) := by
    refine recoded_compileImmediate isKey (fun h' ty' d' c' cs' hd => ?_) hs
    obtain rfl : d = some (.kind h' ty' d' c' cs') := by
      simpa [domain?, hv, KindClass.isElement, KindClass.isType] using hd
    exact htables.2 h'.name (by simp [Term.head?])
  refine .same_bind fun name => ?_
  dsimp only
  split
  · exact immediate _ hs
  split
  · exact immediate _ (Coding.single_self (by decide))
  · refine recoded_storedColumn htables.1 (ha.name h rfl (by simp [hv])) ?_ ?_
    · split <;> decide
    · split
      · exact fun s hs => Option.some.inj hs ▸ (by decide : Unquoted keyAlias)
      · simp

theorem recoded_compileKind {ty d c cs : Option Term} (hs : K.Single "'*'" "'*'")
    (ha : Recodable K r f (.kind h ty d c cs)) :
    (compileTerm r (.kind h ty d c cs)).Parallel (Compiled.Recoded K)
      (compileTerm r ((kind h ty d c cs).recode f)) := by
  by_cases hc : h.cls = .constant
  case pos =>
    have hcode : h.code = (kind h ty d c cs).constantCode? := by simp [constantCode?, hc]
    have hrel : Option.Rel (fun c c' =>
        K.Single ("'" ++ underscored c ++ "'") ("'" ++ underscored c' ++ "'"))
        h.code (h.code.map f) := by
      cases hs : h.code
      case none   => exact .none
      case some c => exact .some (ha.code c (hcode ▸ hs))
    rw [recode, compileTerm, compileTerm, compileKind, compileKind]
    simp only [hc, beq_self_eq_true, if_true]
    exact (recoded_compileConstant hs hrel).map fun _ _ h => .query h
  case neg =>
    have hsame : (kind h ty d c cs).recode f = .kind h ty d c cs := by
      simp [recode, hc]
    rw [hsame, compileTerm, compileKind]
    have hname := ha.name h rfl hc
    split
    case isTrue hv =>
      exact (recoded_compileVariable hs (by simpa using hv) ha).map fun _ _ h => .query h
    case isFalse hv =>
      split
      case isTrue hr =>
        have htable : K.Avoids (tableOf r (underscored h.name)) :=
          ha.tables _ (by simp [storedTables, hv, hr])
        exact (recoded_storedColumn htable hname (by decide) (by simp)).map fun _ _ h => .query h
      case isFalse =>
        simp only [hc, beq_iff_eq, if_false]
        split
        · unfold compileOperator
          split
          · exact parallel_pure (.operator (by decide) (Coding.formats_of_isSpaced (by decide)))
          · exact parallel_pure .nothing
        · exact parallel_pure .nothing

end Kinds

section Terms

variable {r : Setting} {f : String → String}

mutual

theorem width_recode : (t : Term) → width (t.recode f) = width t
  | .app _ _ args _                       => by rw [recode, width, width, widths_recode args]
  | .kind ..                              => by rw [recode, width, width] <;> simp
  | .gap .. | .number _ | .flag _ | .nothing => rfl

theorem widths_recode : (ts : List Term) → width.widths (recode.recodeAll f ts) = width.widths ts
  | []      => rfl
  | t :: ts => by
    rw [recode.recodeAll, width.widths, width.widths, width_recode t, widths_recode ts]

end

theorem position?_recode (t : Term) : (t.recode f).position? = t.position? := by
  cases t <;> rfl

theorem recodeAll_eq (ts : List Term) : recode.recodeAll f ts = ts.map (recode f) := by
  induction ts
  case nil          => rfl
  case cons t ts ih => rw [recode.recodeAll, ih, map_cons]

theorem compileProjection_recode (ts : List Term) :
    compileProjection (ts.map (recode f)) = compileProjection ts := by
  have hpos : (ts.map (recode f)).getLast?.bind position? =
      ts.getLast?.bind position? := by
    simp [getLast?_map, Option.bind_map, position?_recode]
  have hcols (k : Int) : projectionColumns (ts.map (recode f)).dropLast k =
      projectionColumns ts.dropLast k := by
    simp [projectionColumns, ← map_dropLast, zipIdx_map, foldl_map, width_recode]
  simp only [compileProjection, hpos, hcols]

theorem recoded_compileProjection (ts : List Term) :
    (compileProjection ts).Parallel (Compiled.Recoded K) (compileProjection ts) := by
  unfold compileProjection
  split
  · exact parallel_throw
  · split
    · exact parallel_pure .projection
    · exact parallel_throw

mutual

-- The kinds are compiled in parallel, and so is whatever is built from them.
theorem recoded_compileTerm (hK : ∀ n : Nat, K.Avoids ("tmp" ++ toString n))
    (hs : K.Single "'*'" "'*'") : (t : Term) → (∀ k ∈ t.kinds, Recodable K r f k) →
    (compileTerm r t).Parallel (Compiled.Recoded K) (compileTerm r (t.recode f))
  | .app n op ts ty, ha => by
    have hall := recoded_compileAll hK hs ts fun t ht k hk =>
      ha k (kinds_app ▸ mem_flatMap.mpr ⟨t, ht, hk⟩)
    cases op
    case projection =>
      change (compileProjection ts).Parallel _ (compileProjection (recode.recodeAll f ts))
      rw [recodeAll_eq, compileProjection_recode]
      exact recoded_compileProjection ts
    case composition =>
      exact hall.bind fun cs cs' h => (recoded_freezeAll hK r.switches h).bind fun cs cs' h =>
        recoded_compose hK h
    case product     => exact hall.bind fun cs cs' h => recoded_compileProduct hK r.switches h
    case inclusion   => exact hall.bind fun cs cs' h => recoded_compileInclusion hK r.switches h
    case inverse     => exact hall.bind fun cs cs' h => recoded_compileInverse hK r.switches h
    case aggregation => exact hall.bind fun cs cs' h => recoded_compileAggregation hK r.switches h
    all_goals exact parallel_pure .nothing
  | .kind .., ha => recoded_compileKind hs (ha _ (by simp))
  | .gap .., _ | .number _, _ | .flag _, _ | .nothing, _ => parallel_pure .nothing

theorem recoded_compileAll (hK : ∀ n : Nat, K.Avoids ("tmp" ++ toString n))
    (hs : K.Single "'*'" "'*'") : (ts : List Term) → (∀ t ∈ ts, ∀ k ∈ t.kinds, Recodable K r f k) →
    (compileTerm.compileAll r ts).Parallel (Forall₂ (Compiled.Recoded K))
      (compileTerm.compileAll r (recode.recodeAll f ts))
  | [], _ => parallel_pure .nil
  | t :: ts, ha => by
    obtain ⟨ht, hts⟩ := forall_mem_cons.mp ha
    exact (recoded_compileTerm hK hs t ht).bind fun c c' hc =>
      (recoded_compileAll hK hs ts hts).bind fun cs cs' hcs => parallel_pure (.cons hc hcs)

end

theorem recoded_compile (hK : ∀ n : Nat, K.Avoids ("tmp" ++ toString n))
    (hs : K.Single "'*'" "'*'") {t : Term} (ha : ∀ k ∈ t.kinds, Recodable K r f k) :
    (compile r t).Parallel (Query.Recoded K) (compile r (t.recode f)) := by
  refine .same_bind fun _ => (recoded_compileTerm hK hs t ha).bind fun c c' hc => ?_
  refine hc.asQuery.bind fun q q' hq => ?_
  split
  · exact parallel_ofExcept hq.dedup
  · exact parallel_pure hq

end Terms

end Sql
end Inquiry
