import Mathlib
import Inquiry.Proofs.Request.Steering
import Inquiry.Proofs.Sql.Ranking

/-!
Rankings keep their order if the variable that they go by belongs to the target itself. A variable
that is reached on a path is no variable any more: it is not recognised when the term is compiled,
and the query is not ordered.
-/

namespace Inquiry

open List

namespace Term

-- Something is taken as it is, or on the rows of another query.
inductive TakenFrom (v : Term) : Term → Prop
  | all : TakenFrom v v
  | on {n u ty} : TakenFrom v (.app n .composition [v, u] ty)

inductive TotalOf (v : Term) : Term → Prop
  | nothing : TotalOf v .nothing
  | total {n t w ty} : TakenFrom v t → TotalOf v (.app n .aggregation [t, w] ty)

theorem TakenFrom.of_joins {v u t : Term} (h : Joins .composition [v, u] t) : TakenFrom v t := by
  obtain ⟨_, _, rfl⟩ := h
  exact .on

end Term

namespace Term

variable {key v t : Term} {alone : Prop}

theorem Joins.offers {ts : List Term} {w : Term} (h : Joins .product (w :: ts) v) (hw : w.Own)
    (hk : key ∈ w :: ts) (ha : alone → ts = []) : Offers key alone v := by
  match ts, h with
  | [], h =>
    obtain rfl := mem_singleton.mp hk
    exact h ▸ .key
  | _ :: _, ⟨_, _, h⟩ => exact h ▸ .product (fun h => nomatch ha h) hw hk

theorem TakenFrom.takes (h : TakenFrom v t) (hv : Offers key alone v) : Takes key alone t := by
  cases h
  case all => exact .all hv
  case on  => exact .on hv

theorem TotalOf.ranks (h : TotalOf v t) (hv : Offers key False v) : t = .nothing ∨ Ranks key t := by
  cases h
  case nothing => exact .inl rfl
  case total h => exact .inr (.total (h.takes hv))

-- The rows that are ranked by the first one of some terms.
def RankedBy (numbers : List Term) (t : Term) : Prop :=
  ∀ key, numbers.head? = some key → key.Own → t = .nothing ∨ Ranks key t

end Term

-- A list of terms, in which each is met once.
def Term.enter (args : List Term) (t : Term) : List Term :=
  if args.contains t then args else args ++ [t]

namespace Term

variable {args ts own : List Term} {key t : Term}

theorem isPrefix_enter : args <+: enter args t := by
  rw [enter]
  split
  · exact prefix_rfl
  · exact prefix_append args [t]

theorem isPrefix_foldl_enter : args <+: ts.foldl enter args := by
  induction ts generalizing args
  case nil          => exact prefix_rfl
  case cons t ts ih => exact isPrefix_enter.trans ih

theorem mem_foldl_enter (h : t ∈ ts.foldl enter args) : t ∈ args ∨ t ∈ ts := by
  induction ts generalizing args
  case nil => exact .inl h
  case cons u ts ih =>
    have h := ih h
    rw [enter] at h
    grind

theorem key_entered (ts : List Term) (hs : ∀ v ∈ own, key == v → key = v) :
    ∃ v vs, (own ++ key :: ts).foldl enter [] = v :: vs ∧ (v ∈ own ∨ v = key) ∧ key ∈ v :: vs := by
  rw [foldl_append, foldl_cons]
  have hown (t) (h : t ∈ own.foldl enter []) : t ∈ own := by simpa using mem_foldl_enter h
  generalize own.foldl enter [] = own' at hown
  have hk : key ∈ enter own' key := by
    rw [enter]
    split
    case isTrue h =>
      have ⟨v, hv, he⟩ := contains_iff_exists_mem_beq.mp h
      exact hs v (hown v hv) he ▸ hv
    case isFalse => simp
  have hall : ∀ v ∈ enter own' key, v ∈ own ∨ v = key := by
    rw [enter]
    grind
  obtain ⟨vs, h⟩ : enter own' key <+: ts.foldl enter (enter own' key) := isPrefix_foldl_enter
  rw [← h]
  generalize enter own' key = l at hk hall
  cases l
  case nil => simp at hk
  case cons v l => exact ⟨v, l ++ vs, rfl, hall v (by simp), by simp at hk ⊢; tauto⟩

end Term

-- The variables that stand for an object type.
def Session.defaultsFor (s : Session) (target : Term) : List Term :=
  (s.defaults.get? target).getD []

inductive Interpretation.Meets (P : Term → Term → Prop) : Interpretation → Prop
  | single {t} : Meets P (.single t)
  | ranking {t key order r} : P t key → Meets P (.ranking t key order r)

theorem Path.mem_insert {p q : Path} {ps : List Path} : p ∈ Path.insert q ps ↔ p = q ∨ p ∈ ps := by
  rw [Path.insert]
  induction ps
  case nil => simp [insertSorted]
  case cons q' ps ih =>
    rw [insertSorted]
    split
    · simp only [mem_cons, ih]
      tauto
    · simp

namespace Request

open Session SessionM Term

-- A word for a numeric variable stands for `v`.
def Asks (r : Request) (v : Term) : Prop :=
  ∃ i ∈ r.places [Keyword.numeric], ∃ m, r.meaning i = .ok m ∧ variableOf m = .ok v

def Leads (r : Request) (t : Term) : Prop :=
  ∃ v p, r.Asks v ∧ Joins .composition (v :: p) t

theorem Leads.asks {r : Request} {t : Term} (h : r.Leads t) (ht : t.isVariable) : r.Asks t := by
  obtain ⟨v, p, hv, hj⟩ := h
  cases p
  case nil => exact hj ▸ hv
  case cons =>
    obtain ⟨_, _, rfl⟩ := hj
    simp [Term.isVariable, hasClass, cls?] at ht

section Keeps

variable {I : Session → Prop} (hI : Steers I) (r : Request)
include hI

theorem keeps_numericPaths (target : Term) : Keeps I (r.numericPaths target)
    fun ps => ∀ p ∈ ps, ∃ v p', r.Asks v ∧ p = v :: p' := by
  refine keeps_ofExcept.bind fun clues _ => ?_
  refine keeps_foldlM_of (by simp) fun ps i hi hps => ?_
  refine Keeps.bind (P := r.Asks) (keeps_outcome fun v hv => ?_) fun v hv => ?_
  · have ⟨m, hm, hv⟩ := bind_eq_ok.mp hv
    exact ⟨i, hi, m, hm, hv⟩
  · refine (hI.keeps_pathTo clues target v).bind ?_
    rintro _ ⟨p', rfl⟩
    refine keeps_pure fun p hp => ?_
    obtain rfl | hp := Path.mem_insert.mp hp
    · exact ⟨v, p', hv, rfl⟩
    · exact hps p hp

theorem keeps_numbers {ps : List Path} (h : ∀ p ∈ ps, ∃ v p', r.Asks v ∧ p = v :: p') :
    Keeps I (ps.mapM compose) fun ts => ∀ t ∈ ts, r.Leads t := by
  refine (keeps_mapM_forall₂ fun p _ => hI.keeps_compose p).imp fun ts hts t ht => ?_
  have ⟨p, hp, hj⟩ := exists_of_mem_right hts ht
  obtain ⟨v, p', hv, rfl⟩ := h p hp
  exact ⟨v, p', hv, hj⟩

theorem keeps_totalTerm (pivot target : Term) (ps : List Path) (numbers : List Term)
    (selection split : Term) : Keeps I (r.totalTerm pivot target ps numbers selection split)
      fun x => ∃ v, (numbers ≠ [] → Joins .product numbers v) ∧ TotalOf v x.1 := by
  unfold totalTerm
  refine (hI.keeps_breakdown r pivot target selection ps split).bind ?_
  rintro ⟨breakdown, ps⟩ -
  refine Keeps.bind_ite (P := fun v => numbers ≠ [] → Joins .product numbers v) ?_ fun v hv => ?_
  · refine .ite (fun h => (hI.keeps_counting target).imp fun _ _ hn => ?_) fun _ =>
      (hI.keeps_pair numbers).imp fun _ h _ => h
    exact absurd (isEmpty_iff.mp h) hn
  refine (hI.keeps_together target).bind fun w _ => ?_
  refine Keeps.bind_ite (P := fun _ => True) ?_ fun w _ => ?_
  · exact .ite (fun _ => (hI.keeps_compose _).any) fun _ => keeps_done
  -- what is taken on the selection is taken on nothing else
  refine Keeps.bind_ite (P := fun t => TakenFrom v t ∧ ((pivot == target) = false → t = v)) ?_
    fun t ht => ?_
  · refine .ite (fun h => (hI.keeps_compose _).imp fun t ht => ⟨.of_joins ht, fun hp => ?_⟩)
      fun _ => keeps_pure ⟨.all, fun _ => rfl⟩
    simp [hp] at h
  refine Keeps.bind_ite (P := fun z => (pivot == target) = true → z = .nothing) ?_ fun z hz => ?_
  · exact .ite (fun _ => keeps_pure fun _ => rfl) fun h => hI.keeps_part.imp fun _ _ hp =>
      absurd hp h
  refine Keeps.bind_ite (P := fun _ => True) ?_ fun w _ => ?_
  · exact .ite (fun _ => keeps_done) fun _ => (hI.keeps_compose _).any
  have ended (w? : Option Term) : Keeps I (aggregated t z ps w?)
      fun x => ∃ v, (numbers ≠ [] → Joins .product numbers v) ∧ TotalOf v x.1 := by
    rw [aggregated.eq_def]
    split
    · exact keeps_pure ⟨v, hv, .nothing⟩
    · refine (hI.keeps_aggregate _ _).bind ?_
      rintro _ ⟨_, _, rfl⟩
      exact keeps_pure ⟨v, hv, .total ht.left⟩
    case h_3 hn =>
      refine keeps_ofExcept.bind fun b _ => .ite (fun _ => ?_) fun _ => keeps_pure ⟨v, hv, .nothing⟩
      refine (hI.keeps_compose _).bind fun u hu => (hI.keeps_aggregate _ _).bind ?_
      rintro _ ⟨_, _, rfl⟩
      have hp : (pivot == target) = false := by simpa using fun h => hn (hz h)
      exact keeps_pure ⟨v, hv, .total (.of_joins (ht.right hp ▸ hu))⟩
  dsimp only
  refine .ite (fun _ => keeps_done.bind fun w? _ => ended w?) fun _ => ?_
  refine .ite (fun _ => keeps_done.bind fun w? _ => ended w?) fun _ => ?_
  refine (hI.keeps_partsFrom breakdown ps _).bind fun zs? _ => ?_
  cases zs?
  case none    => exact keeps_done.bind fun w? _ => ended w?
  case some zs => exact (hI.keeps_pair zs).bind fun _ _ => keeps_done.bind fun w? _ => ended w?

theorem keeps_averageTerm (pivot target : Term) (ps : List Path) (numbers : List Term)
    (selection : Term) (hq : ∀ s, I s → s.quotient.hasClass .operator) :
    Keeps I (r.averageTerm pivot target ps numbers selection) (RankedBy numbers) := by
  cases numbers
  case nil => exact keeps_pure nofun
  case cons key numbers =>
    rw [averageTerm]
    refine (keeps_totalTerm hI r pivot target ps [key] selection .nothing).bind ?_
    rintro ⟨t, ps⟩ ⟨v, hv, ht⟩
    obtain rfl : v = key := hv (by simp)
    refine (keeps_totalTerm hI r pivot target ps [] selection .nothing).bind ?_
    rintro ⟨u, _⟩ -
    dsimp only
    rw [quotientTerm.eq_def]
    split
    case h_1 | h_2 => exact keeps_pure fun _ _ _ => .inl rfl
    case h_3 hn _ =>
      refine keeps_get.bind fun s hs => (hI.keeps_pair _).bind ?_
      rintro _ ⟨_, _, rfl⟩
      refine (hI.keeps_compose _).imp ?_
      rintro _ ⟨_, _, rfl⟩ _ ⟨⟩ _
      cases ht
      case nothing => exact absurd rfl hn
      case total h => exact .inr (.average (hq s hs) (h.takes .key))

omit hI in
theorem keeps_first {numbers : List Term} : Keeps I (ofExcept (Sequence.get numbers 0))
    fun key => numbers.head? = some key :=
  keeps_outcome fun _ h => head?_eq_getElem? ▸ Sequence.getElem?_of_get (i := 0) h

theorem keeps_rankingOver (pivot target : Term) (order : String) {numbers : List Term}
    {term : Request → Meaning → List Path → SessionM Term}
    (ht : ∀ r m ps, Keeps I (term r m ps) (RankedBy numbers)) :
    Keeps I (r.rankingOver pivot target order (ofExcept (Sequence.get numbers 0)) term)
      (Interpretation.Meets fun t key => numbers.head? = some key ∧ RankedBy numbers t) := by
  refine (Steers.keeps_nextTarget r).bind fun m _ => ?_
  refine .ite (fun _ => keeps_pure .single) fun _ => keeps_ofExcept.bind fun r' _ => ?_
  refine (hI.keeps_dimensionPaths r' pivot target .nothing []).bind fun x _ => ?_
  exact (ht r' m x.1).bind fun t ht => keeps_first.bind fun k hk => keeps_pure (.ranking ⟨hk, ht⟩)

theorem keeps_totalRanking (pivot target : Term) (numbers : List Term) (selection : Term)
    (order : String) : Keeps I (r.totalRanking pivot target numbers selection order)
      (Interpretation.Meets fun t key => numbers.head? = some key ∧ RankedBy numbers t) := by
  refine keeps_rankingOver hI r pivot target order fun r' _ ps => ?_
  refine (keeps_totalTerm hI r' pivot target ps numbers selection .nothing).bind ?_
  rintro ⟨t, _⟩ ⟨v, hv, ht⟩
  refine keeps_pure fun key hh hk => ?_
  obtain ⟨ts, rfl⟩ := head?_eq_some_iff.mp hh
  exact ht.ranks ((hv (by simp)).offers hk (by simp) nofun)

theorem keeps_averageRanking (pivot target : Term) (numbers : List Term) (selection : Term)
    (order : String) (hq : ∀ s, I s → s.quotient.hasClass .operator) :
    Keeps I (r.averageRanking pivot target numbers selection order)
      (Interpretation.Meets fun t key => numbers.head? = some key ∧ RankedBy numbers t) := by
  exact keeps_rankingOver hI r pivot target order fun r' _ ps =>
    keeps_averageTerm hI r' pivot target ps numbers selection hq

-- The entries before the first number leave it a column of its own.
def Heads (own numbers : List Term) : Prop :=
  ∀ key, numbers.head? = some key → key.Own → ∀ v ∈ own, v.Own ∧ (key == v → key = v)

-- How a list goes on with the variables that it starts with.
def listed (asked : List Term) (breakdown : Term) (own : List Term) : SessionM Term := do
  let args := (own ++ asked).foldl enter []
  if args.isEmpty then return .nothing
  let v ← pair args
  match breakdown with
  | .nothing => return v
  | k        => compose [v, k]

theorem keeps_listTerm (target : Term) (numbers types : List Term) (breakdown : Term)
    (withDefaults : Bool) (hd : ∀ s, I s → Heads (s.defaultsFor target) numbers) :
    Keeps I (listTerm target (numbers ++ types) breakdown withDefaults) (RankedBy numbers) := by
  have rest (own : List Term) (ho : Heads own numbers) :
      Keeps I (listed (numbers ++ types) breakdown own) (RankedBy numbers) := by
    refine .ite (fun _ => keeps_pure fun _ _ _ => .inl rfl) fun _ => (hI.keeps_pair _).bind ?_
    intro t ht
    have offers (key : Term) (hh : numbers.head? = some key) (hk : key.Own) :
        Offers key False t := by
      have hown := ho key hh hk
      obtain ⟨ns, rfl⟩ := head?_eq_some_iff.mp hh
      obtain ⟨v, vs, ha, hv, hm⟩ := key_entered (ns ++ types) fun v hv => (hown v hv).right
      rw [cons_append, ha] at ht
      exact ht.offers (hv.elim (fun h => (hown v h).left) fun h => h ▸ hk) hm False.elim
    split
    · exact keeps_pure fun key hh hk => .inr (.rows (.all (offers key hh hk)))
    · refine (hI.keeps_compose _).imp ?_
      rintro _ ⟨_, _, rfl⟩ key hh hk
      exact .inr (.rows (.on (offers key hh hk)))
  rw [listTerm]
  refine .ite (fun _ => keeps_get.bind fun s hs => ?_) fun _ => ?_
  · simp only [pure_bind]
    exact rest _ (hd s hs)
  · simp only [pure_bind]
    exact rest [] fun _ _ _ => by simp

theorem keeps_variableRanking (target : Term) (numbers types : List Term) (breakdown : Term)
    (order : String) (hd : ∀ s, I s → Heads (s.defaultsFor target) numbers) :
    Keeps I (r.variableRanking target numbers types breakdown order)
      (Interpretation.Meets fun t key => numbers.head? = some key ∧ RankedBy numbers t) := by
  refine (Steers.keeps_nextTarget r).bind fun m _ => .ite (fun _ => keeps_pure .single) fun _ => ?_
  exact (keeps_listTerm hI target numbers types breakdown _ hd).bind fun t ht =>
    keeps_first.bind fun k hk => keeps_pure (.ranking ⟨hk, ht⟩)

end Keeps

-- The variables that a ranking can go by, and those that stand for the target, belong to object
-- types, and none of them is taken for another.
structure Rankable (r : Request) (s : Session) (target : Term) : Prop where
  numeric  : ∀ v, r.Asks v → v.Own
  defaults : ∀ v ∈ s.defaultsFor target, v.Own
  same     : ∀ u, r.Asks u → ∀ v ∈ s.defaultsFor target, u == v → u = v
  quotient : s.quotient.hasClass .operator

theorem Rankable.steers (r : Request) (target : Term) : Steers (r.Rankable · target) where
  numbered _ h := ⟨h.numeric, h.defaults, h.same, h.quotient⟩
  missing _ _ h := ⟨h.numeric, h.defaults, h.same, h.quotient⟩
  new _ _ _ h _ := ⟨h.numeric, h.defaults, h.same, h.quotient⟩

theorem keeps_interpret (r : Request) (target : Term) {cls : Int}
    (hc : cls = 8 ∨ cls = 9 ∨ cls = 10) :
    Keeps (r.Rankable · target) (r.interpret target cls)
      (Interpretation.Meets fun t key => r.Leads key ∧ (key.Own → t = .nothing ∨ Ranks key t)) := by
  have hI := Rankable.steers r target
  unfold interpret
  refine (hI.keeps_pivot r).bind fun pivot _ => ?_
  dsimp only
  refine .ite (fun _ => keeps_pure .single) fun _ => keeps_ofExcept.bind fun b _ => ?_
  refine .ite_or (hI.keeps_reaches pivot target) ?_ (keeps_pure .single)
  refine (keeps_numericPaths hI r target).bind fun ps hps => ?_
  refine (hI.keeps_categoryPaths r target).bind fun cps _ => ?_
  refine (hI.keeps_objectTypePaths r pivot target).bind fun tps _ => ?_
  refine (keeps_mapM fun p _ => hI.keeps_extend p).bind fun tps _ => ?_
  refine (keeps_numbers hI r hps).bind fun numbers hn => ?_
  refine (keeps_mapM fun p _ => (hI.keeps_compose p).any).bind fun categories _ => ?_
  refine (keeps_mapM fun p _ => (hI.keeps_compose p).any).bind fun types _ => ?_
  refine (hI.keeps_selection r pivot target).bind fun selection _ => ?_
  have weaken (i : Interpretation) (hi : i.Meets fun t key => numbers.head? = some key ∧
      RankedBy numbers t) :
      i.Meets fun t key => r.Leads key ∧ (key.Own → t = .nothing ∨ Ranks key t) := by
    cases hi
    case single => exact .single
    case ranking h => exact .ranking ⟨hn _ (mem_of_mem_head? h.left), h.right _ h.left⟩
  obtain rfl | rfl | rfl := hc
  · exact (keeps_totalRanking hI r pivot target numbers selection _).imp weaken
  · exact (keeps_averageRanking hI r pivot target numbers selection _ fun _ h => h.quotient).imp
      weaken
  · refine (hI.keeps_breakdown r pivot target selection [] .nothing).bind fun x _ => ?_
    refine (keeps_variableRanking hI r target numbers types x.1 _ fun s hs key hk ho v hv => ?_).imp
      weaken
    have ha := (hn key (mem_of_mem_head? hk)).asks ho.isVariable
    exact ⟨hs.defaults v hv, hs.same key ha v hv⟩

theorem Leads.clear {r : Request} {key t : Term} {designs : List Term} {order : String}
    (h : r.Leads key) (hk : key.isVariable = false) (hr : ∀ v, r.Asks v → v.Own)
    (hn : Sql.Unnamed t.kinds) :
    Sql.Setting.Clear { designs, key := some key, order } t.kinds := by
  obtain ⟨v, p, hv, hj⟩ := h
  cases p
  case nil =>
    have := (hr v hv).isVariable
    simp [← show key = v from hj, hk] at this
  case cons =>
    obtain ⟨_, _, rfl⟩ := hj
    refine Sql.clear_of_countP rfl (countP_eq_zero.mpr fun k hm => ?_) hn
    have hk := isKind_of_mem_kinds t hm
    cases k <;> simp [isKind, equals] at hk ⊢

/-- A ranking by a total, by an average or by a variable itself is ordered exactly if what it goes
by is a variable, and not a path to one. One column is then marked for the order if the variable occurs
once. -/
theorem ranking_ordered_iff_by_variable {r r' : Request} {target t key : Term} {cls : Int}
    {order : String} {s s' u u' : Session} {q : Sql.Query} {designs : List Term}
    (hc : cls = 8 ∨ cls = 9 ∨ cls = 10) (hr : r.Rankable s target)
    (hi : (r.interpret target cls).Gives s (.ranking t key order r') s') (ht : t ≠ .nothing)
    (hn : Sql.Unnamed t.kinds)
    (hq : (Sql.compile { designs, key := some key, order } t).Gives u q u') :
    (q.orderBy = some Sql.keyAlias ↔ key.isVariable) ∧
    (key.isVariable → key.columns t = 1 → q.marks = 1) ∧
    (key.isVariable = false → q.orderBy = none ∧ q.marks = 0) := by
  have hm := (keeps_interpret r target hc s hr).right _ (by rw [hi])
  obtain ⟨hl, ho⟩ : r.Leads key ∧ (key.Own → t = .nothing ∨ Ranks key t) := by
    cases hm
    assumption
  have unordered (h : key.isVariable = false) := Sql.unordered_compile (hl.clear h hr.numeric hn) hq
  have ordered (h : key.isVariable) :=
    have hk := hr.numeric key (hl.asks h)
    Sql.ordered_compile hk rfl rfl ((ho hk).resolve_left ht) hq
  have hs : Sql.Unnamed (t.shown.1 ++ t.shown.2) := fun k hk =>
    hn k (List.append_subset.mpr (shown_subset_kinds t) hk)
  refine ⟨⟨fun h => ?_, fun h => (ordered h).left⟩, fun h h' => (ordered h).right ⟨h', hs⟩, unordered⟩
  by_contra hv
  simp [unordered (by simpa using hv)] at h

-- Persons, who are called by their names, and their incomes.
namespace Earners

def type (n : Nat) (cls : KindClass) (name : String) : Term :=
  .kind { serial := n, id := .fresh n, cls, name, sort := cls.sort } none none none none

def property (n : Nat) (name : String) (d c : Term) : Term :=
  .kind { serial := n, id := .fresh n, cls := .variable, name, sort := .variable }
    (some (.app (n + 1) .functionalType [d, c] none)) (some d) (some c) none

def person   := type 1 .objectType "persoon"
def amount   := type 2 .quantity "getal"
def text     := type 3 .phenomenon "naam"
def income   := property 4 "inkomen" person amount
def surname  := property 6 "achternaam" person text
def quotient := type 8 .operator "(/)"

def design : Term :=
  .kind
    { serial := 9, id := .fresh 9, cls := .datasetDesign, name := "persoon", sort := .datasetDesign }
    none none none (some (.app 10 .product [surname, income] none))

def session : Session where
  next     := 11
  quotient := quotient
  defaults := [(person, [surname])]

def request : Request where
  tokens   := ["welke", "persoon", "hoogste", "inkomen"]
  meanings := [.nothing, .term person, .nothing, .term income]
  keywords := [Keyword.question, Keyword.objectType, Keyword.greatest, Keyword.numeric]

theorem own_variable (n : Nat) (name : String) (c : Term) : (property n name person c).Own :=
  ⟨rfl, person, rfl, rfl⟩

theorem asks_iff {v : Term} (h : request.Asks v) : v = income := by
  obtain ⟨i, hi, m, hm, hv⟩ := h
  obtain rfl : i = 3 := mem_singleton.mp hi
  obtain rfl : .term income = m := Except.ok.inj hm
  exact (Except.ok.inj hv).symm

theorem rankable : request.Rankable session person where
  numeric v h  := asks_iff h ▸ own_variable ..
  defaults v h := by
    obtain rfl := mem_singleton.mp (show v ∈ [surname] from h)
    exact own_variable ..
  same u hu v hv := by
    obtain rfl := asks_iff hu
    obtain rfl := mem_singleton.mp (show v ∈ [surname] from hv)
    exact nofun
  quotient     := rfl

def compiles : Bool :=
  match (request.interpret person 10).runIn session with
  | (.ok (.ranking t key order _), s') =>
    !(t matches .nothing) && key.isVariable && key.columns t == 1 &&
    (t.kinds.all fun k => k.head?.all fun h => Text.underscored h.name != Sql.keyAlias) &&
    ((Sql.compile { designs := [design], key := some key, order } t).runIn s').1.toOption.isSome
  | _ => false

end Earners

theorem earners_ordered_by_income : Earners.request.Rankable Earners.session Earners.person ∧
    ∃ t key order r' s' q u', (Earners.request.interpret Earners.person 10).Gives Earners.session
      (.ranking t key order r') s' ∧ key.isVariable ∧ key.columns t = 1 ∧
      (Sql.compile { designs := [Earners.design], key := some key, order } t).Gives s' q u' ∧
      q.orderBy = some Sql.keyAlias ∧ q.marks = 1 := by
  have hrun : Earners.compiles = true := by decide +kernel
  rw [Earners.compiles] at hrun
  split at hrun
  case h_1 t key order r' s' hi =>
    simp only [Bool.and_eq_true, beq_iff_eq] at hrun
    obtain ⟨⟨⟨⟨ht, hv⟩, hc⟩, hn⟩, hq⟩ := hrun
    rcases hr : (Sql.compile { designs := [Earners.design], key := some key, order } t).runIn s'
      with ⟨_ | q, u'⟩
    · simp [hr, Except.toOption] at hq
    · have h := ranking_ordered_iff_by_variable (.inr (.inr rfl)) Earners.rankable hi ?_ ?_ hr
      · exact ⟨Earners.rankable, t, key, order, r', s', q, u', hi, hv, hc, hr, h.1.mpr hv, h.2.1 hv hc⟩
      · rintro rfl
        simp at ht
      · intro k hk h' hh
        have := List.all_eq_true.mp hn k hk
        simpa [hh] using this
  case h_2 => simp at hrun

end Request
end Inquiry
