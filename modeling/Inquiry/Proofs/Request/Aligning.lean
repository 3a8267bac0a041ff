import Mathlib
import Inquiry.Proofs.Request.Extending
import Inquiry.Proofs.Session.Gathering

/-!
Alignment: a term is taken from the domain of another one. What comes of it goes from that domain to
where the term went. A component of the domain of the term has to be the very same type as one of
the other domain, though; that the two are equal is not enough.
-/

namespace Inquiry

open List Term

namespace Term

variable {K : Term → Prop} {t u d d' c : Term} {ts us ds : List Term}

-- The types that a type is made up of: the parts of a Cartesian product, or only itself.
def components : Term → List Term
  | app _ .cartesianProduct ts _ => ts
  | d                            => [d]

theorem domList_eq (h : t.dom = .ok d) : t.domList = .ok d.components := by
  rw [domList, h, ok_bind]
  split
  case h_1   => rfl
  case h_2 h => rw [components.eq_2 _ h]

-- The type is whole, and put together from its components.
structure Composed (d : Term) : Prop where
  tuple : IsTupleType .one d.components d
  some  : d.components ≠ []
  types : ∀ c ∈ d.components, c.IsType

theorem Composed.of_eq (hd : d.IsType) (h : d.components = [d]) : d.Composed where
  tuple := by rw [h]; rfl
  some  := by simp [h]
  types := by simpa [h] using hd

theorem composed_app {n : Nat} (hn : 2 ≤ ts.length) (ht : ∀ t ∈ ts, t.IsType) :
    (app n .cartesianProduct ts none).Composed where
  tuple := by
    rcases ts with _ | ⟨_, _ | ⟨_, _⟩⟩
    case nil       => simp at hn
    case cons.nil  => simp at hn
    case cons.cons => exact ⟨n, rfl⟩
  some  := by
    rintro rfl
    simp at hn
  types := ht

theorem role?_of_hasRole {r : Role} (h : t.hasRole r = .ok true) : t.role? = some r := by
  obtain ⟨r', hr, he⟩ := map_eq_ok.mp h
  rw [role] at hr
  cases hr' : t.role? <;> simp_all

theorem Formed.parts {n : Nat} {ty : Option Term} (h : Formed K (.app n .cartesianProduct ts ty)) :
    2 ≤ ts.length ∧ (∀ t ∈ ts, t.IsType) ∧ ty = none := by
  cases h
  case position h => simp [position?] at h
  case app hts ha =>
    obtain ⟨hadm, _, hr, he⟩ := apply_eq_ok.mp ha
    cases he
    simp only [Op.resultType, Except.ok.injEq] at hr
    simp only [Op.admits] at hadm
    split at hadm
    case isTrue => simp at hadm
    case isFalse hn =>
      refine ⟨Nat.not_lt.mp hn, fun t ht => ⟨?_, (hts t ht).whole⟩, hr.symm⟩
      exact role?_of_hasRole (allM_eq_true hadm t ht)

theorem Formed.composed (h : Formed K d) (hd : d.IsType) : d.Composed := by
  cases d
  case app n op ts ty =>
    cases op
    case cartesianProduct =>
      obtain ⟨hn, ht, rfl⟩ := h.parts
      exact composed_app hn ht
    all_goals exact .of_eq hd rfl
  all_goals exact .of_eq hd rfl

theorem IsTupleType.equals (h : IsTupleType u ts d) (h' : IsTupleType u ts d') (hn : ts ≠ [])
    (ht : ∀ t ∈ ts, t.IsType) : d.equals d' := by
  rcases ts with _ | ⟨t, _ | ⟨_, _⟩⟩
  case nil => exact absurd rfl hn
  case cons.nil =>
    obtain rfl : d = t := h
    obtain rfl : d' = d := h'
    exact (ht _ (by simp)).whole
  case cons.cons =>
    obtain ⟨m, rfl⟩ := h
    obtain ⟨n, rfl⟩ := h'
    exact equals_app fun t h => (ht t h).whole

theorem IsTupleType.printed_eq (h : IsTupleType u ts d) (h' : IsTupleType u ts d') :
    d.printed = d'.printed := by
  rcases ts with _ | ⟨t, _ | ⟨_, _⟩⟩
  case nil      => rw [show d = u from h, show d' = u from h']
  case cons.nil => rw [show d = t from h, show d' = t from h']
  case cons.cons =>
    obtain ⟨m, rfl⟩ := h
    obtain ⟨n, rfl⟩ := h'
    rfl

theorem eq_of_beq_of_identified (h : Identified (ts ++ us)) (he : (ts == us) = true) : ts = us := by
  induction ts generalizing us
  case nil => cases us <;> simp_all
  case cons t ts ih =>
    cases us
    case nil => simp at he
    case cons u us =>
      have ⟨ht, hts⟩ : (t == u) = true ∧ (ts == us) = true := by simpa using he
      have htu : t = u := h t (by simp) u (by simp) ht
      have hsub : ∀ x ∈ ts ++ us, x ∈ t :: ts ++ u :: us := by
        simp only [mem_append, mem_cons]
        grind
      rw [htu, ih (fun x hx y hy => h x (hsub x hx) y (hsub y hy)) hts]

end Term

namespace Alignment

-- What may become of the components `ds` in a domain `d` with the components `us`.
def Suits (d : Term) (us ds : List Term) : Alignment → Prop
  | parts ps => Spread ps d ds ∧ ∀ x ∈ ds, ∃ y ∈ us, y == x
  | whole    => ∃ x ∈ ds, x == .one
  | missing  => ∃ x ∈ ds, ∀ y ∈ us, (y == x) = false

theorem Suits.cons {d x : Term} {us ds : List Term} {a : Alignment} (hn : ∀ ps, a ≠ parts ps)
    (h : Suits d us ds a) : Suits d us (x :: ds) a := by
  cases a
  case parts ps => exact absurd rfl (hn ps)
  all_goals
    obtain ⟨y, hy, h⟩ := h
    exact ⟨y, by simp [hy], h⟩

end Alignment

namespace SessionM

variable {s s' : Session} {t u r d d' c : Term} {ts us ds : List Term}

theorem makes_projection {i : Nat} (hn : 2 ≤ us.length) (hus : ∀ y ∈ us, y.IsType)
    (hi : us[i]? = some c) : (projection (us ++ [.number (i + 1)])).Makes fun p =>
      ∃ m, p.Goes (.app m .cartesianProduct us none) c := by
  have hl : ¬(us ++ [Term.number (i + 1)]).length < 2 := by
    simp only [length_append, length_singleton]
    omega
  rw [projection, if_neg hl]
  intro s
  obtain ⟨m, ty, hp, hg⟩ := builds_projection (n := s.next) hn hus hi
  exact ⟨_, s.numbered, gives_app_iff.mpr ⟨hp, rfl⟩, m, hg⟩

-- Each component is looked for in the other domain, in which one object is one term.
theorem makes_alignParts (hd : d.Composed) (hn : 2 ≤ d.components.length)
    (hid : ∀ x ∈ ds, ∀ y ∈ d.components, y == x → y = x) :
    (alignParts d.components ds).Makes (Alignment.Suits d d.components ds) := by
  induction ds
  case nil => exact makes_pure ⟨.nil, by simp⟩
  case cons x ds ih =>
    rw [alignParts]
    split
    case isTrue h => exact makes_pure ⟨x, by simp, h⟩
    case isFalse =>
      split
      case h_1 h =>
        exact makes_pure ⟨x, by simp, by simpa [findIdx?_eq_none_iff] using h⟩
      case h_2 i h =>
        obtain ⟨hi, hb, _⟩ := findIdx?_eq_some_iff_getElem.mp h
        have hx := hid x (by simp) _ (getElem_mem hi) hb
        have hp := makes_projection hn hd.types (getElem?_eq_getElem hi)
        refine hp.bind ?_
        rintro p ⟨m, hp⟩
        refine (ih fun y hy => hid y (by simp [hy])).bind fun a ha => ?_
        split
        case h_1 ps =>
          have he : (Term.app m .cartesianProduct d.components none).equals d :=
            (composed_app hn hd.types).tuple.equals hd.tuple hd.some hd.types
          refine makes_pure ⟨.cons ⟨_, hx ▸ hp, he⟩ ha.left, ?_⟩
          exact forall_mem_cons.mpr ⟨⟨_, getElem_mem hi, hb⟩, ha.right⟩
        case h_2 h => exact makes_pure (ha.cons h)

theorem makes_compose_parts {ps : List Term} (ht : t.Goes d c) (hd : d.Composed)
    (hps : Spread ps d' d.components) :
    (do compose [t, ← pair ps] : SessionM Term).Makes fun r => ∃ e, r.Goes e c ∧ e.equals d' := by
  intro s
  have hn : ps ≠ [] := by
    rintro rfl
    exact hd.some (forall₂_nil_left_iff.mp hps)
  obtain ⟨q, s₁, hq, _, e, c', hg, he, hc⟩ := gives_pair hps hn s
  have heq := hd.tuple.equals hc hd.some hd.types
  obtain ⟨r, s₂, hr, hrg⟩ := compose_leads (.cons ht (.single hg) heq) s₁
  exact ⟨r, s₂, hq.bind hr, e, hrg, he⟩

-- Alignment with a term from a product succeeds exactly if each component of the domain is one of
-- the components of that product, the very same object.
theorem align_nothing_iff {K : Term → Prop} {t u d c c' : Term} {us : List Term} {n : Nat}
    {ty : Option Term} (ht : Formed K t) (hu : Formed K u) (htg : t.Goes d c)
    (hug : u.Goes (.app n .cartesianProduct us ty) c')
    (hone : ∀ x ∈ d.components, (x == .one) = false) (hid : Identified (d.components ++ us)) :
    (align t u).Makes fun r =>
      (r = .nothing ↔ ∃ x ∈ d.components, ∀ y ∈ us, (y == x) = false) ∧
      (r ≠ .nothing → ∃ e, r.Goes e c ∧ e.equals (.app n .cartesianProduct us ty)) := by
  have hd := (Formed.typeArg (fun _ => ht.type) htg.dom).composed htg.source
  have hd' := Formed.typeArg (fun _ => hu.type) hug.dom
  obtain ⟨hn, hus, rfl⟩ := hd'.parts
  have hid' : ∀ x ∈ d.components, ∀ y ∈ us, y == x → y = x := fun x hx y hy =>
    hid y (List.mem_append_right _ hy) x (List.mem_append_left _ hx)
  refine .ofExcept_bind (domList_eq htg.dom) (.ofExcept_bind (domList_eq hug.dom) ?_)
  split
  case isTrue he =>
    have he : d.components = us := eq_of_beq_of_identified hid he
    refine makes_pure ⟨iff_of_false htg.ne_nothing ?_, fun _ => ⟨d, htg, ?_⟩⟩
    · rintro ⟨x, hx, h⟩
      simpa using h x (he ▸ hx)
    · exact hd.tuple.equals (he ▸ (composed_app hn hus).tuple) hd.some hd.types
  case isFalse =>
    refine (makes_alignParts (composed_app hn hus) hn hid').bind fun a ha => ?_
    split
    case h_1 => exact makes_pure ⟨iff_of_true rfl ha, absurd rfl⟩
    case h_2 =>
      obtain ⟨x, hx, h⟩ := ha
      simp [hone x hx] at h
    case h_3 ps =>
      refine (makes_compose_parts htg hd ha.left).imp fun r ⟨e, hr, he⟩ => ?_
      refine ⟨iff_of_false hr.ne_nothing ?_, fun _ => ⟨e, hr, he⟩⟩
      rintro ⟨x, hx, h⟩
      obtain ⟨y, hy, hyx⟩ := ha.right x hx
      simp [h y hy] at hyx

-- Pairs of a sex and a name, as parts of larger products.
namespace Pairs

def values (n : Nat) (name : String) : Term :=
  .kind { serial := n, id := .fresh n, cls := .phenomenon, name, sort := .phenomenon }
    none none none none

def sexes  := values 1 "geslachten"
def names  := values 2 "namen"
def days   := values 3 "dagen"
def months := values 4 "maanden"

def pairs (n : Nat) : Term := .app n .cartesianProduct [sexes, names] none

def dated (n : Nat) : Term := .app (n + 2) .cartesianProduct [pairs n, days] none
def timed (n : Nat) : Term := .app (n + 2) .cartesianProduct [pairs n, days, months] none

-- The pair of a dated pair, and the month of a pair that is dated with its month.
def pairOf (n : Nat) : Term :=
  .app (n + 1) .projection [pairs n, days, .number 1]
    (some (.app (n + 3) .functionalType [dated n, pairs n] none))

def monthOf (n : Nat) : Term :=
  .app (n + 1) .projection [pairs n, days, months, .number 3]
    (some (.app (n + 3) .functionalType [timed n, months] none))

theorem isType_values (n : Nat) (name : String) : (values n name).IsType := ⟨rfl, by simp [values]⟩

theorem formed_values (n : Nat) (name : String) : Formed (fun _ => True) (values n name) :=
  .kind trivial (by simp)

theorem formed_pairs (n : Nat) : Formed (fun _ => True) (pairs n) := by
  have hp : apply n .cartesianProduct [sexes, names] = .ok (pairs n) := rfl
  exact .app (by simp [sexes, names, formed_values]) hp

theorem isType_pairs (n : Nat) : (pairs n).IsType :=
  isType_app rfl (by simp [sexes, names, (isType_values _ _).whole])

theorem formed_number (n : Int) : Formed (fun _ => True) (.number n) :=
  .position (by simp [position?])

theorem formed_pairOf (n : Nat) : Formed (fun _ => True) (pairOf n) := by
  have hp : apply (n + 1) .projection [pairs n, days, .number 1] = .ok (pairOf n) := rfl
  exact .app (by simp [days, formed_values, formed_pairs, formed_number]) hp

theorem formed_monthOf (n : Nat) : Formed (fun _ => True) (monthOf n) := by
  have hp : apply (n + 1) .projection [pairs n, days, months, .number 3] = .ok (monthOf n) := rfl
  exact .app (by simp [days, months, formed_values, formed_pairs, formed_number]) hp

theorem goes_pairOf (n : Nat) : (pairOf n).Goes (dated n) (pairs n) := by
  refine goes_app rfl ?_ (isType_app rfl ?_) (isType_pairs n)
  all_goals simp [days, (isType_values _ _).whole, (isType_pairs n).whole, equals, position?]

theorem goes_monthOf (n : Nat) : (monthOf n).Goes (timed n) months := by
  refine goes_app rfl ?_ (isType_app rfl ?_) (isType_values _ _)
  all_goals
    simp [days, months, (isType_values _ _).whole, (isType_pairs n).whole, equals, position?]

theorem identified {n : Nat} (hn : n = 5 ∨ n = 9) :
    Identified ((dated 5).components ++ [pairs n, days, months]) := by
  simp only [Identified, dated, components, cons_append, nil_append, forall_mem_cons]
  obtain rfl | rfl := hn <;> simp [days, months, values, pairs, BEq.beq, same, serial?]

end Pairs

-- Two pairs that were built each by itself are equal, and yet not aligned.
theorem pairs_aligned_iff_shared :
    (Pairs.pairs 5).equals (Pairs.pairs 9) ∧
    (align (Pairs.pairOf 5) (Pairs.monthOf 9)).Makes (· = .nothing) ∧
    (align (Pairs.pairOf 5) (Pairs.monthOf 5)).Makes fun r =>
      ∃ e, r.Goes e (Pairs.pairs 5) ∧ e.equals (Pairs.timed 5) := by
  have hone : ∀ x ∈ (Pairs.dated 5).components, (x == .one) = false := by decide
  have aligned {n : Nat} (hn : n = 5 ∨ n = 9) :=
    align_nothing_iff (Pairs.formed_pairOf 5) (Pairs.formed_monthOf n) (Pairs.goes_pairOf 5)
      (Pairs.goes_monthOf n) hone (Pairs.identified hn)
  refine ⟨by decide, (aligned (.inr rfl)).imp fun r hr => hr.left.mpr ?_,
    (aligned (.inl rfl)).imp fun r hr => hr.right (mt hr.left.mp ?_)⟩
  · exact ⟨Pairs.pairs 5, by simp [Pairs.dated, components], by decide⟩
  · decide

theorem goes_of_composition {w : Term} {n : Nat} (ht : t.Goes d c) (hw : w.equals w)
    (hd : ∀ e, w.dom = .ok e → e.equals d') (h : apply n .composition [t, w] = .ok r) :
    ∃ e, r.Goes e c ∧ e.equals d' := by
  obtain ⟨_, ty, hr, rfl⟩ := apply_eq_ok.mp h
  obtain ⟨hrole, _⟩ | ⟨_, _, rfl, m, e, c', hf, hends⟩ := resultType_cases hr
  case inl => cases hrole
  case inr =>
    cases hends
    case composition htl hul he hc =>
      cases htl
      cases hul
      obtain rfl : c = c' := Except.ok.inj (ht.cod.symm.trans hc)
      have he' := hd e he
      obtain ⟨hadm, rfl⟩ := form_eq_ok.mp hf
      have htype : e.IsType := by
        refine ⟨role?_of_hasRole (allM_eq_true hadm e (by simp)), ?_⟩
        exact equals_trans he' (equals_symm he')
      exact ⟨e, goes_app rfl (by simp [ht.whole, hw]) htype ht.target, he'⟩

theorem equals_self_of_isKind (h : t.isKind) : t.equals t := by
  cases t <;> simp [isKind] at h ⊢

theorem isTupleType_of_cross (hus : us ≠ []) (h : (cross us).Gives s r s') :
    IsTupleType .one us r := by
  rcases us with _ | ⟨x, _ | ⟨y, us⟩⟩
  case nil       => exact absurd rfl hus
  case cons.nil  => exact (gives_pure.mp h).left.symm
  case cons.cons =>
    obtain ⟨h, _⟩ := gives_app_iff.mp h
    obtain ⟨_, _, hr, rfl⟩ := apply_eq_ok.mp h
    cases hr
    exact ⟨_, rfl⟩

theorem alignParts_single {x : Term} {a : Alignment} (hds : ds ≠ [])
    (h : (alignParts [x] ds).Gives s a s') : ∀ ps, a ≠ .parts ps := by
  obtain ⟨y, ds, rfl⟩ := exists_cons_of_ne_nil hds
  rw [alignParts] at h
  split at h
  case isTrue =>
    obtain ⟨rfl, _⟩ := gives_pure.mp h
    simp
  case isFalse =>
    split at h
    case h_1 =>
      obtain ⟨rfl, _⟩ := gives_pure.mp h
      simp
    case h_2 i _ =>
      obtain ⟨p, s₁, hp, _⟩ := gives_bind.mp h
      obtain ⟨hp, _⟩ := gives_app_iff.mp hp
      have hadm : Op.projection.admits ([x] ++ [.number (i + 1)]) = .ok false := rfl
      cases hadm.symm.trans (apply_eq_ok.mp hp).left

open Session

theorem align_goes {K : Term → Prop} {s₀ s s' : Session} {t u r d c d' c' : Term} (hs : s₀.Gathers)
    (hp : Passed s₀ s) (hd : s.Distinguishes d') (ht : Formed K t) (hu : Formed K u)
    (htg : t.Goes d c) (hug : u.Goes d' c') (hid : Identified (d.components ++ d'.components))
    (h : (align t u).Gives s r s') (hr : r ≠ .nothing) : ∃ e, r.Goes e c ∧ e.equals d' := by
  have hc := (Formed.typeArg (fun _ => ht.type) htg.dom).composed htg.source
  have hc' := (Formed.typeArg (fun _ => hu.type) hug.dom).composed hug.source
  have hid' : ∀ x ∈ d.components, ∀ y ∈ d'.components, y == x → y = x := fun x hx y hy =>
    hid y (List.mem_append_right _ hy) x (List.mem_append_left _ hx)
  rw [align, domList_eq htg.dom, domList_eq hug.dom] at h
  obtain ⟨_, he, h⟩ := gives_ofExcept_bind_iff.mp h
  cases he
  obtain ⟨_, he, h⟩ := gives_ofExcept_bind_iff.mp h
  cases he
  split at h
  case isTrue he =>
    obtain ⟨rfl, _⟩ := gives_pure.mp h
    have he : d.components = d'.components := eq_of_beq_of_identified hid he
    exact ⟨d, htg, hc.tuple.equals (he ▸ hc'.tuple) hc.some hc.types⟩
  case isFalse =>
    obtain ⟨a, s₁, ha, h⟩ := gives_bind.mp h
    split at h
    case h_1 => exact absurd (gives_pure.mp h).left.symm hr
    case h_2 =>
      obtain ⟨q, s₂, hq, h⟩ := gives_bind.mp h
      obtain ⟨w, s₃, hw, h⟩ := gives_bind.mp h
      let I (x : Session) := x.known = s.known ∧ x.graph = s.graph
      have hI (x : Session) (h : I x) : I x.numbered := h
      have h₁ : I s₁ := (keeps_alignParts hI _ _).gives ⟨rfl, rfl⟩ ha
      have ⟨hk, hg⟩ : I s₂ := (keeps_joined hI _ _).gives h₁ hq
      have htq := isTupleType_of_cross hc'.some hq
      have hqd := htq.equals hc'.tuple hc'.some hc'.types
      have ⟨hkind, hdom⟩ := together_distinguished ((hs.passed hp).of_eq hk hg) (hd.of_eq hk hg)
        (htq.printed_eq hc'.tuple) hqd hw
      exact goes_of_composition htg (equals_self_of_isKind hkind) hdom (gives_app_iff.mp h).left
    case h_3 ps =>
      by_cases hn : 2 ≤ d'.components.length
      case pos =>
        obtain ⟨_, _, ha', hps⟩ := makes_alignParts hc' hn hid' s
        obtain ⟨rfl, rfl⟩ := ha.unique ha'
        obtain ⟨_, _, hr', hgoes⟩ := makes_compose_parts htg hc hps.left s₁
        obtain ⟨rfl, rfl⟩ := h.unique hr'
        exact hgoes
      case neg =>
        obtain ⟨x, hx⟩ : ∃ x, d'.components = [x] := by
          have := List.length_pos_iff.mpr hc'.some
          exact List.length_eq_one_iff.mp (by omega)
        rw [hx] at ha
        exact absurd rfl (alignParts_single hc.some ha ps)

namespace Pairs

def man : Term :=
  .kind { serial := 13, id := .fresh 13, cls := .constant, name := "man", sort := .constant }
    (some (.app 14 .functionalType [.one, sexes] none)) (some .one) (some sexes) none

def session : Session where
  next  := 20
  known := ({} : Std.HashMap String Term).insert "1" .one

theorem formed_man : Formed (fun _ => True) man := by
  have hs : Formed (fun _ => True) sexes := formed_values _ _
  have ho : Formed (fun _ => True) .one := .kind trivial (by simp)
  have hty : apply 14 .functionalType [.one, sexes]
    = .ok (.app 14 .functionalType [.one, sexes] none) := rfl
  exact .kind trivial fun _ h => Option.some.inj h ▸ .app (by simp [hs, ho]) hty

theorem goes_man : man.Goes .one sexes :=
  ⟨rfl, rfl, rfl, rfl, ⟨rfl, rfl⟩, isType_values _ _⟩

theorem known_session {name : String} {k : Term} (h : session.known[name]? = some k) :
    name = "1" ∧ k = .one := by
  simp only [session, Std.HashMap.getElem?_insert] at h
  grind

theorem gathers : session.Gathers where
  graph    := ⟨by simp [session, Graph.labels], by simp [session]⟩
  one      := by simp [session]
  named name k h _ := by
    obtain ⟨rfl, rfl⟩ := known_session h
    exact ⟨rfl, rfl⟩
  together p k d h := by
    exact absurd (known_session h).left (title_ne_one p).right

theorem distinguishes (d : Term) : session.Distinguishes d where
  known name k d' h hd := by
    obtain ⟨_, rfl⟩ := known_session h
    cases hd
  named := by simp [session]

-- The domain of the month, built anew, and the variable that takes its members together.
def timedAnew : Term := .app 20 .cartesianProduct [pairs 9, days, months] none

def gathered (n : Nat) : Term :=
  .kind { serial := n, id := .fresh n, cls := .variable, name := togetherTitle timedAnew.printed,
          sort := .variable }
    (some (.app (n + 1) .functionalType [timedAnew, .one] none)) (some timedAnew) (some .one) none

theorem goes_gathered (n : Nat) : (gathered n).Goes timedAnew .one := by
  refine ⟨rfl, by simp [gathered], rfl, rfl, isType_app rfl ?_, ⟨rfl, rfl⟩⟩
  simp [days, months, (isType_values _ _).whole, (isType_pairs 9).whole]

theorem gives_together : ∃ s', (together timedAnew).Gives session.numbered (gathered 26) s' := by
  have hk : session.numbered.known[togetherTitle timedAnew.printed]? = none := by
    cases h : session.numbered.known[togetherTitle timedAnew.printed]?
    case none => rfl
    case some => exact absurd (known_session h).left (title_ne_one _).right
  have hfound : (kindOfSort (togetherTitle timedAnew.printed) "Variable").Gives session.numbered
      .nothing session.numbered := by
    refine gives_get_bind.mpr ?_
    rw [hk]
    exact gives_get_bind.mpr gives_done
  have hm (n : Nat) : Term.make n
      { cls := .variable, name := togetherTitle timedAnew.printed, domain := timedAnew.present,
        codomain := some .one } = .ok (gathered n) := rfl
  exact ⟨_, hfound.bind (Gives.bind (gives_make (hm _)) (Gives.bind (gives_know ..)
    (gives_make (hm _))))⟩

theorem gives_aligned : ∃ r s', (align man (monthOf 9)).Gives session r s' ∧ r ≠ .nothing := by
  have hcross : (cross [pairs 9, days, months]).Gives session timedAnew session.numbered :=
    gives_app_iff.mpr ⟨rfl, rfl⟩
  obtain ⟨s₂, hw⟩ := gives_together
  obtain ⟨r, s₃, hr, hg⟩ := compose_leads (.cons goes_man (.single (goes_gathered 26)) rfl) s₂
  refine ⟨r, s₃, ?_, hg.ne_nothing⟩
  refine Gives.ofExcept_bind rfl (Gives.ofExcept_bind rfl ?_)
  rw [if_neg (by decide)]
  exact Gives.bind gives_done (hcross.bind (hw.bind hr))

theorem identified_man : Identified (one.components ++ (timed 9).components) := by
  simp only [Identified, one, timed, components, cons_append, nil_append,
    forall_mem_cons]
  simp [days, months, values, pairs, BEq.beq, same, serial?]

end Pairs

-- A constant that is aligned with what goes from a product, of which no variable tells yet.
theorem man_aligned : Pairs.session.Gathers ∧ Pairs.session.Distinguishes (Pairs.timed 9) ∧
    ∃ r s', (align Pairs.man (Pairs.monthOf 9)).Gives Pairs.session r s' ∧
      ∃ e, r.Goes e Pairs.sexes ∧ e.equals (Pairs.timed 9) := by
  obtain ⟨r, s', h, hr⟩ := Pairs.gives_aligned
  have hd := Pairs.distinguishes (Pairs.timed 9)
  exact ⟨Pairs.gathers, hd, r, s', h, align_goes Pairs.gathers .start hd Pairs.formed_man
    (Pairs.formed_monthOf 9) Pairs.goes_man (Pairs.goes_monthOf 9) Pairs.identified_man h hr⟩

end SessionM

end Inquiry
