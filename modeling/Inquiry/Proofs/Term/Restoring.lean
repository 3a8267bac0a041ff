import Mathlib
import Inquiry.Proofs.Kind.Making
import Inquiry.Proofs.Term.Storage
import Inquiry.Script.Storage

/-!
A kind is restored from its structure: its type, its ends and its construction are equal to what they
were when the structure was written. The uses that are kept for it are the kinds in the document.
-/

namespace Inquiry

open Markup

namespace Term

variable {K : Term → Prop} {t u k : Term} {n m : Nat} {uses : Uses}

-- The part of a document for an end or the construction of a kind.
def enclosedTree (tag : String) : Option Term → List Element
  | none   => []
  | some t => [.node tag [] [written t]]

def kindsInOption (o : Option Term) : List Term :=
  o.toList.flatMap kindsIn

def document (h : KindHead) (d c s : Option Term) : Element :=
  .node "structure" [("kind", h.cls.role.label)]
    (enclosedTree "domain" d ++ enclosedTree "codomain" c ++ enclosedTree "construction" s)

def Stores (K : Term → Prop) (o : Option Term) : Prop :=
  ∀ t, o = some t → Storable K t

variable {d c s : Option Term} {tag : String} {h : KindHead} {ty : Option Term}

theorem runs_enclosed (h : Stores K s) (w : Writing) :
    Runs (enclosed tag s) w (enclosedTree tag s) (meet w (kindsInOption s)) := by
  cases s
  case none => exact .pure
  case some t =>
    have hw := (h t rfl).runs_structureOf w
    rw [show kindsInOption (some t) = kindsIn t by simp [kindsInOption]]
    exact hw.bind .pure

theorem runs_structureOfKind (hd : Stores K d) (hc : Stores K c) (hs : Stores K s)
    (he : ¬h.cls.isElement → d = none ∧ c = none) :
    Runs (structureOfKind (.kind h ty d c s)) ⟨[], false⟩ (document h d c s)
      (meet ⟨[], false⟩ (kindsInOption d ++ kindsInOption c ++ kindsInOption s)) := by
  rw [meet_append, meet_append, structureOfKind]
  split
  case isTrue =>
    refine (runs_enclosed hd _).bind ((runs_enclosed hc _).bind (Runs.pure.bind ?_))
    exact (runs_enclosed hs _).bind (Runs.get.bind .pure)
  case isFalse hn =>
    obtain ⟨rfl, rfl⟩ := he hn
    exact Runs.pure.bind ((runs_enclosed hs _).bind (Runs.get.bind .pure))

theorem usedIds_enclosedTree (h : Stores K s) (ht : tag ≠ "use") :
    (enclosedTree tag s).flatMap Element.usedIds = (kindsInOption s).filterMap idText? := by
  cases s
  case none => rfl
  case some t =>
    simp [enclosedTree, kindsInOption, Element.node, Element.usedIds, ht,
      Element.usedIds.usedIdsOfList, (h t rfl).usedIds]

theorem usedIds_document (hd : Stores K d) (hc : Stores K c) (hs : Stores K s) :
    (document h d c s).usedIds =
      (kindsInOption d ++ kindsInOption c ++ kindsInOption s).filterMap idText? := by
  simp [document, Element.node, Element.usedIds, usedIdsOfList_eq,
    usedIds_enclosedTree hd, usedIds_enclosedTree hc, usedIds_enclosedTree hs]

theorem runs_read {r : Restoring} {x : ReadingM α} {a : α} {m : Nat} (h : Runs x r.next a m) :
    Runs (RestoringM.read x) r a { r with next := m } := by
  have h : (ExceptT.run x).run r.next = (.ok a, m) := h
  refine Runs.get.bind ?_
  simp only [h]
  exact Runs.set.bind .pure

theorem runs_change {d c s : Option Term} (f : Option Term → Option Term →
      Option Term → Option Term → Option Term × Option Term × Option Term × Option Term) :
    Runs (RestoringM.change f) ⟨.kind h ty d c s, n⟩ ⟨⟩
      ⟨.kind h (f ty d c s).1 (f ty d c s).2.1 (f ty d c s).2.2.1 (f ty d c s).2.2.2, n⟩ :=
  Runs.modify

variable {es : List Element} {tag' : String}

theorem ofEnd_other (h : tag' ≠ tag) : ofStructure.ofEnd uses tag (enclosedTree tag' s ++ es) =
    ofStructure.ofEnd uses tag es := by
  cases s
  case none => rfl
  case some => simp [enclosedTree, Element.node, ofStructure.ofEnd, h]

theorem ofEnd_same : ofStructure.ofEnd uses tag (enclosedTree tag (some t) ++ es) =
    do return some (← ofStructure uses (written t)) := by
  simp [enclosedTree, Element.node, ofStructure.ofEnd]

theorem ofEnd_congr {es' : List Element}
    (h : ofStructure.ofEnd uses tag es = ofStructure.ofEnd uses tag es') :
    ofStructure.ofEnd uses tag (enclosedTree tag s ++ es) =
      ofStructure.ofEnd uses tag (enclosedTree tag s ++ es') := by
  cases s
  case none => exact h
  case some => rw [ofEnd_same, ofEnd_same]

theorem exists_runs_ofEnd (tag : String) {ks : List Term} (hs : Stock K n) (hm : Met K ks uses)
    (h : Stores K s) (hk : ∀ k ∈ kindsInOption s, k ∈ ks) :
    ∃ s' n', Runs (ofStructure.ofEnd uses tag (enclosedTree tag s ++ [])) n s' n' ∧ n ≤ n' ∧
      Option.Rel Alike s s' := by
  cases s
  case none => exact ⟨none, n, .pure, Nat.le_refl n, .none⟩
  case some t =>
    have hk : ∀ k ∈ kindsIn t, k ∈ ks := by simpa [kindsInOption] using hk
    have ⟨t', n', hr, hn, ha, _⟩ := (h t rfl).exists_readsBack hs hm hk
    exact ⟨some t', n', ofEnd_same ▸ hr.bind .pure, hn, .some ha⟩

section Document

variable {h : KindHead}

theorem get?_document : ((document h d c s).get? "kind" == some "element") = h.cls.isElement := by
  simp only [document, Element.node, Element.get?, Element.attributes, List.lookup]
  cases h.cls <;> rfl

theorem find?_document : ((document h d c s).find? "construction").isSome = s.isSome := by
  cases d <;> cases c <;> cases s <;> rfl

theorem children_document : (document h d c s).children = enclosedTree "domain" d ++
    (enclosedTree "codomain" c ++ (enclosedTree "construction" s ++ [])) := by
  simp [document, Element.node, Element.children]

theorem ofEnd_domain : ofStructure.ofEnd uses "domain" (document h d c s).children =
    ofStructure.ofEnd uses "domain" (enclosedTree "domain" d ++ []) := by
  rw [children_document]
  exact ofEnd_congr ((ofEnd_other (by simp)).trans (ofEnd_other (by simp)))

theorem ofEnd_codomain : ofStructure.ofEnd uses "codomain" (document h d c s).children =
    ofStructure.ofEnd uses "codomain" (enclosedTree "codomain" c ++ []) := by
  rw [children_document, ofEnd_other (by simp)]
  exact ofEnd_congr (ofEnd_other (by simp))

theorem ofEnd_construction : ofStructure.ofEnd uses "construction" (document h d c s).children =
    ofStructure.ofEnd uses "construction" (enclosedTree "construction" s ++ []) := by
  rw [children_document, ofEnd_other (by simp), ofEnd_other (by simp)]

end Document

section Restore

variable {h : KindHead} {ks : List Term} {ty : Term}

theorem Stores.present (hs : Stores K s) (ha : Option.Rel Alike s (some u)) : present u = some u := by
  cases ha
  case some t ha =>
    obtain rfl | ⟨_, _, _, _, _, _, _, _, rfl, _⟩ := ha.eq_or_apps
    case inr => rfl
    case inl => cases hs _ rfl <;> rfl

-- The parts of a kind are equal to those of another one, as far as they are there.
def EqualPart : Option Term → Option Term → Prop :=
  Option.Rel fun a b => a.equals b

inductive Restored : Term → Term → Prop
  | kind {h ty ty' d d' c c' s s'} : EqualPart ty ty' → EqualPart d d' → EqualPart c c' →
    EqualPart s s' → Restored (.kind h ty d c s) (.kind h ty' d' c' s')

theorem Stores.equalPart {s' : Option Term} (hs : Stores K s) (ha : Option.Rel Alike s s') :
    EqualPart s s' := by
  cases ha
  case none => exact .none
  case some ha => exact .some (ha.equals (hs _ rfl).formed.whole)

-- The type that a construction has when it is worked out anew is the one that was kept.
theorem Storable.returnType {o : Option Term} (ht : Storable K t) (h : t.returnType n = .ok o) :
    Option.Rel Alike o t.type? := by
  cases ht
  case kind =>
    obtain rfl := Except.ok.inj h
    exact (Alike.refl (.kind _ _ _ _ _)).type
  case app i op ts ty _ _ _ ha =>
    have ⟨_, ty, hty, he⟩ := apply_eq_ok.mp ha
    cases he
    have hres : Agree (Option.Rel Alike) (op.resultType n ts) (op.resultType (i + 1) ts) :=
      agree_resultType Alike.indistinct (Alike.refl_list ts) (.of_eq rfl)
    have ⟨_, hty', hrel⟩ := hres.exists_ok h
    exact Except.ok.inj (hty'.symm.trans hty) ▸ hrel

theorem Storable.whole_returnType (ht : Storable K t) (h : t.returnType n = .ok (some ty)) :
    ty.equals ty := by
  have hrel := ht.returnType h
  generalize ho : t.type? = o at hrel
  cases hrel
  case some ty' hty =>
    rw [hty.equals_eq hty]
    exact (ht.formed.type ho).whole

theorem restored_type (hc : h.cls.isElement = false) (hs : Stock K n) (hm : Met K ks uses)
    (hst : Stores K (some t)) (hk : ∀ k ∈ kindsInOption (some t), k ∈ ks) : ∃ k' n',
      Runs (restore uses (document h none none (some t))) ⟨.kind h none none none none, n⟩ ⟨⟩ ⟨k', n'⟩ ∧
      Restored (.kind h none none none (some t)) k' := by
  have ⟨s', n', hr, _, ha⟩ := exists_runs_ofEnd "construction" hs hm hst hk
  cases ha
  case some u ha =>
    refine ⟨.kind h none none none (some u), n', ?_, .kind .none .none .none (hst.equalPart (.some ha))⟩
    rw [restore]
    simp only [get?_document, find?_document, hc, Option.isSome_some, if_true]
    refine (runs_read (ofEnd_construction ▸ hr)).bind ?_
    simp only [hst.present (.some ha)]
    exact Runs.modify.bind .pure

theorem restored_built {d c : Term} {ts : List Term} (hc : h.cls.isElement)
    (hty : t.returnType (m + 1) = .ok (some ty)) (hargs : ty.args = .ok ts) (hd : ts[0]? = some d)
    (hcod : ts[1]? = some c) (hs : Stock K n) (hm : Met K ks uses) (hst : Stores K (some t))
    (hdt : Stores K (some d)) (hct : Stores K (some c))
    (hk : ∀ k ∈ kindsInOption (some t), k ∈ ks) :
    ∃ k' n', Runs (restore uses (document h (some d) (some c) (some t)))
        ⟨.kind h none (some d) (some c) none, n⟩ ⟨⟩ ⟨k', n'⟩ ∧
      Restored (.kind h (some ty) (some d) (some c) (some t)) k' := by
  have ⟨s', n', hr, _, ha⟩ := exists_runs_ofEnd "construction" hs hm hst hk
  cases ha
  case some u ha =>
    have hrel := Alike.trans_option ((hst t rfl).returnType hty) ha.type
    generalize hu : u.type? = o at hrel
    cases hrel
    case some ty' hty' =>
      have ⟨ts', hargs', hts⟩ := hty'.args.exists_ok hargs
      have ⟨d', hd', hdd⟩ := exists_getElem?_right hts hd
      have ⟨c', hc', hcc⟩ := exists_getElem?_right hts hcod
      have hdom : u.dom = .ok d' := by simp [dom, typeArg, hu, hargs', hd']
      have hcodom : u.cod = .ok c' := by simp [cod, typeArg, hu, hargs', hc']
      refine ⟨.kind h (some ty') (some d') (some c') (some u), n', ?_, .kind ?_ ?_ ?_ ?_⟩
      · rw [restore]
        simp only [get?_document, find?_document, hc, Option.isSome_some, if_true]
        refine (runs_read (ofEnd_construction ▸ hr)).bind ?_
        simp only [hst.present (.some ha), hdom, hcodom, hu]
        exact Runs.modify.bind (Runs.modify.bind
          ((Runs.ofExcept rfl).bind (Runs.modify.bind ((Runs.ofExcept rfl).bind Runs.modify))))
      · exact .some (hty'.equals ((hst t rfl).whole_returnType hty))
      · exact hdt.equalPart (.some hdd)
      · exact hct.equalPart (.some hcc)
      · exact hst.equalPart (.some ha)

theorem exists_functionalType {a a' b b' : Term} (hf : Op.functionalType.form n [a, b] = .ok ty)
    (ha : Alike a a') (hb : Alike b b') (hwa : a.equals a) (hwb : b.equals b) :
    ∃ ty', apply m .functionalType [a', b'] = .ok ty' ∧ ty.equals ty' := by
  have hab : List.Forall₂ Alike [a, b] [a', b'] := .cons ha (.cons hb .nil)
  have hadm := agree_admits_functionalType Alike.indistinct hab
  have ⟨ty', hty', hal⟩ :=
    (agree_apply (m := m) Alike.indistinct hab hadm).exists_ok (apply_of_form rfl hf)
  obtain ⟨-, rfl⟩ := form_eq_ok.mp hf
  exact ⟨ty', hty', hal.equals (equals_app (by simp [hwa, hwb]))⟩

theorem restored_ends {ty : Option Term} (hc : h.cls.isElement)
    (hty : Made m (.kind h ty d c none)) (hs : Stock K n) (hm : Met K ks uses)
    (hdt : Stores K d) (hct : Stores K c) (hkd : ∀ k ∈ kindsInOption d, k ∈ ks)
    (hkc : ∀ k ∈ kindsInOption c, k ∈ ks) :
    ∃ k' n', Runs (restore uses (document h d c none)) ⟨.kind h none d c none, n⟩ ⟨⟩ ⟨k', n'⟩ ∧
      Restored (.kind h ty d c none) k' := by
  have ⟨d', n', hrd, hn, had⟩ := exists_runs_ofEnd "domain" hs hm hdt hkd
  have ⟨c', n'', hrc, _, hac⟩ := exists_runs_ofEnd "codomain" (hs.later hn) hm hct hkc
  have hd := hdt.equalPart had
  have hcod := hct.equalPart hac
  rw [restore]
  simp only [get?_document, find?_document, hc, Option.isSome_none, Bool.false_eq_true, if_false,
    if_true, ofEnd_domain, ofEnd_codomain]
  cases had <;> cases hac
  case none.none =>
    obtain rfl : ty = none := by cases hty <;> rfl
    refine ⟨.kind h none none none none, n'', ?_, .kind .none hd hcod .none⟩
    refine (runs_read hrd).bind ?_
    exact (runs_read hrc).bind .pure
  case none.some b' hac =>
    obtain rfl : ty = none := by cases hty; rfl
    refine ⟨.kind h none none (some b') none, n'', ?_, .kind .none hd hcod .none⟩
    refine (runs_read hrd).bind ?_
    refine (runs_read hrc).bind ?_
    simp only [hct.present (.some hac)]
    exact (runs_change _).bind .pure
  case some.none a' had =>
    obtain rfl : ty = none := by cases hty; rfl
    refine ⟨.kind h none (some a') none none, n'', ?_, .kind .none hd hcod .none⟩
    refine (runs_read hrd).bind ?_
    simp only [hdt.present (.some had)]
    refine (runs_change _).bind ?_
    exact (runs_read hrc).bind .pure
  case some.some a' had b b' hac =>
    cases hty
    case loose h => simp at h
    case between hf =>
      have ⟨ty', hty', he⟩ := exists_functionalType (m := n'') hf had hac (hdt _ rfl).formed.whole
        (hct _ rfl).formed.whole
      refine ⟨.kind h (some ty') (some a') (some b') none, n'' + Op.serials, ?_, .kind (.some he) hd hcod .none⟩
      refine (runs_read hrd).bind ?_
      simp only [hdt.present (.some had)]
      refine (runs_change _).bind ?_
      refine (runs_read hrc).bind ?_
      simp only [hct.present (.some hac)]
      refine (runs_change _).bind ?_
      exact (runs_read (runs_build hty')).bind (runs_change _)

end Restore

-- The parts that are there can be stored. A type is stored for its construction.
def Savable (K : Term → Prop) : Term → Prop
  | .kind h _ d c s => Stores K d ∧ Stores K c ∧ Stores K s ∧ (h.cls.isElement ∨ s.isSome)
  | _               => False

theorem Stores.kindIn (h : Stores K s) : ∀ k ∈ kindsInOption s, KindIn K k := by
  simp only [kindsInOption, List.mem_flatMap, Option.mem_toList]
  intro k ⟨t, ht, hk⟩
  exact (h t ht).kindIn k hk

theorem restored_of_made {ks : List Term} (hmade : Made m (.kind h ty d c s)) (hs : Stock K n)
    (hm : Met K ks uses) (hp : Savable K (.kind h ty d c s)) (hkd : ∀ k ∈ kindsInOption d, k ∈ ks)
    (hkc : ∀ k ∈ kindsInOption c, k ∈ ks) (hks : ∀ k ∈ kindsInOption s, k ∈ ks) :
    ∃ k' n', Runs (restore uses (document h d c s)) ⟨.kind h none d c none, n⟩ ⟨⟩ ⟨k', n'⟩ ∧
      Restored (.kind h ty d c s) k' := by
  have ⟨hd, hc, hst, he⟩ := hp
  match hmade with
  | .type hn =>
    have ⟨t, ht⟩ := Option.isSome_iff_exists.mp (he.resolve_left (by simp [hn]))
    subst ht
    exact restored_type hn hs hm hst hks
  | .built he hty hargs h₀ h₁ => exact restored_built he hty hargs h₀ h₁ hs hm hst hd hc hks
  | .between he hf            => exact restored_ends he (.between he hf) hs hm hd hc hkd hkc
  | .loose he hn              => exact restored_ends (m := m) he (.loose he hn) hs hm hd hc hkd hkc

theorem restore_undoes_structureOfKind {spec : KindSpec} (hs : Stock K n)
    (hk : make m spec = .ok k) (hp : Savable K k) :
    ∃ root uses k' n', Runs (structureOfKind k) ⟨[], false⟩ root ⟨uses, false⟩ ∧
      uses.ids = root.usedIds.eraseDups ∧
      Runs (restore uses root) ⟨Script.cleared k, n⟩ ⟨⟩ ⟨k', n'⟩ ∧ Restored k k' := by
  have hmade := (make_eq_ok hk).left
  cases k <;> try exact hp.elim
  case kind h ty d c s =>
    have hsaved := hp
    obtain ⟨hd, hc, hst, _⟩ := hsaved
    have he : ¬h.cls.isElement → d = none ∧ c = none := by
      cases hmade <;> simp_all
    have hkinds : ∀ k ∈ kindsInOption d ++ kindsInOption c ++ kindsInOption s, KindIn K k := by
      simp only [List.forall_mem_append]
      exact ⟨⟨hd.kindIn, hc.kindIn⟩, hst.kindIn⟩
    have hm := Met.of_kindIn hs hkinds
    obtain ⟨k', n', hr, hrest⟩ := restored_of_made hmade hs hm hp
      (fun k hk => by simp [hk]) (fun k hk => by simp [hk]) (fun k hk => by simp [hk])
    exact ⟨document h d c s, _, k', n', runs_structureOfKind hd hc hst he,
      usedIds_document hd hc hst ▸ hm.ids, hr, hrest⟩

-- The income of those whose income is their fee, a condition that is put twice.
namespace Equals

def kindOf (n : Nat) (name : String) (cls : KindClass) : Term :=
  .kind { serial := n, id := .given name, cls, name, sort := cls.sort } none none none none

def person : Term := kindOf 1 "persoon" .objectType
def amount : Term := kindOf 2 "bedrag" .phenomenon

def trait (n : Nat) (name : String) : Term :=
  .kind { serial := n, id := .given name, cls := .variable, name, sort := .variable }
    (some (.app (n + 1) .functionalType [person, amount] none)) (some person) (some amount) none

def income : Term := trait 3 "inkomen"
def fee : Term := trait 6 "honorarium"

inductive Known : Term → Prop
  | person : Known person
  | amount : Known amount
  | income : Known income
  | fee : Known fee

def condition : List Term := [income, fee, income, fee]

def part : Term := .app 10 .selection condition none

def members : Term :=
  .app 9 .inclusion condition (some (.app 11 .functionalType [part, person] none))

def reached : Term :=
  .app 12 .composition [income, members] (some (.app 13 .functionalType [part, amount] none))

theorem stock : Stock Known 15 where
  named {k k'} h h' he := by
    cases h.mem <;> cases h'.mem <;> first | rfl | (exfalso; revert he; decide)
  numbered {k k'} h h' he := by
    cases h.mem <;> cases h'.mem <;> first | rfl | (exfalso; revert he; decide)
  old {k i} h hi := by
    cases h.mem <;> cases hi <;> decide

theorem formed_amount : Formed Known amount := .kind .amount (by simp)

theorem formed_trait {n : Nat} {name : String} (h : Known (trait n name)) :
    Formed Known (trait n name) := by
  have hp : Formed Known person := .kind .person (by simp)
  have hty : apply (n + 1) .functionalType [person, amount]
    = .ok (.app (n + 1) .functionalType [person, amount] none) := rfl
  exact .kind h fun _ h => Option.some.inj h ▸ .app (by simp [hp, formed_amount]) hty

theorem storable_condition : ∀ t ∈ condition, Storable Known t := by
  have hi : Storable Known income := .kind (formed_trait .income)
  have hf : Storable Known fee := .kind (formed_trait .fee)
  simp [condition, hi, hf]

theorem paired_condition : Paired (fun _ => True) condition := by
  intro i t u _ ht hu
  match i with
  | 0 | 1 =>
    cases ht
    cases hu
    exact ⟨amount, amount, rfl, rfl, rfl⟩
  | i + 2 => simp [condition, Nat.mul_add] at ht

theorem storable_part : Storable Known part :=
  .app (by simp) storable_condition (fun _ => paired_condition) rfl

theorem storable_reached : Storable Known reached := by
  have hm : Storable Known members :=
    .app (by simp) storable_condition (fun _ => paired_condition) rfl
  have hi : Storable Known income := storable_condition income (by simp [condition])
  exact .app (by simp) (by simp [hi, hm]) (by simp) rfl

def spec : KindSpec where
  cls    := .variable
  name   := "inkomen van gelijken"
  constr := some reached

theorem income_of_equals_restored : ∃ k, make 15 spec = .ok k ∧ ∃ root uses k' n',
    Runs (structureOfKind k) ⟨[], false⟩ root ⟨uses, false⟩ ∧ uses.ids = root.usedIds.eraseDups ∧
    Runs (restore uses root) ⟨Script.cleared k, 18⟩ ⟨⟩ ⟨k', n'⟩ ∧ Restored k k' := by
  have hp : Savable Known (.kind (spec.head 15 .variable)
      (some (.app 16 .functionalType [part, amount] none)) (some part) (some amount) (some reached)) := by
    refine ⟨?_, ?_, ?_, .inl rfl⟩
    · rintro _ ⟨⟩
      exact storable_part
    · rintro _ ⟨⟩
      exact .kind formed_amount
    · rintro _ ⟨⟩
      exact storable_reached
  have hk : make 15 spec = .ok _ := rfl
  exact ⟨_, hk, restore_undoes_structureOfKind (stock.later (by simp)) hk hp⟩

end Equals

end Term
end Inquiry
