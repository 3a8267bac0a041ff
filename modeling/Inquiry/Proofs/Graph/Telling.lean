import Mathlib
import Inquiry.Demonstration

/-!
What a store is told of the elements of a domain. They are told in the order of their classes, each
between the ends that were met last, so an element that lacks an end is told with that of another
one.
-/

namespace Inquiry

open List Term Assoc

namespace Assoc

variable {κ α : Type} [BEq κ]

theorem alter_cons (l k : κ) (b d : α) (f : α → α) (m : Assoc κ α) :
    alter ((l, b) :: m) k d f = if l == k then (l, f b) :: m else (l, b) :: alter m k d f := by
  cases h : l == k <;> simp [alter, get?, put, h]

end Assoc

namespace Term

-- An element of a class that becomes an edge.
def isLink (k : Term) : Bool :=
  ["ObjectTypeRelation", "Variable", "Constant"].contains k.className

def ownDomain? (k : Term) : Option EndName :=
  if k.className = "Constant" then some ⟨"1", "One"⟩ else Store.endOf k.domain?

def ownCodomain? (k : Term) : Option EndName :=
  Store.endOf k.codomain?

def edgeBetween (k : Term) (d c : EndName) : EdgeSpec :=
  ⟨k.printed, k.className, d, c, k.head?.bind (·.article),
    if k.className = "Constant" then k.head?.bind (·.code) else none⟩

def ownEdge? (k : Term) : Option EdgeSpec := do
  return k.edgeBetween (← k.ownDomain?) (← k.ownCodomain?)

end Term

namespace Store

-- The ends that were met last, once an element has been met.
def Ends.meet (e : Ends) (k : Term) : Ends :=
  ⟨k.ownDomain?.or e.domain, k.ownCodomain?.or e.codomain⟩

def Ends.edge? (e : Ends) (k : Term) : Option EdgeSpec := do
  return k.edgeBetween (← e.domain) (← e.codomain)

-- Elements become edges in turn, each between the ends that were met last, until one has none.
inductive Files : Ends → List Term → List EdgeSpec → Option Ends → Prop
  | nil {e} : Files e [] [] (some e)
  | cons {e k ks s ss r} : (e.meet k).edge? k = some s → Files (e.meet k) ks ss r →
    Files e (k :: ks) (s :: ss) r
  | stop {e k ks} : (e.meet k).edge? k = none → Files e (k :: ks) [] none

-- The action says these statements, whatever it prints, and gives the result or fails.
def Tells (x : StoreM α) (ss : List Statement) (r : Option α) : Prop :=
  ∀ l, (x.run.run l).2.statements = l.statements ++ ss ∧ (x.run.run l).1.toOption = r

variable {x : StoreM α} {f : α → StoreM β} {a : α} {ss ts : List Statement} {r : Option β}
  {e e' : Ends} {k : Term} {ks ls : List Term} {es fs : List EdgeSpec} {q : Option Ends}

theorem Tells.run_ok (h : Tells x ss (some a)) (l : Log) :
    ∃ p, x.run.run l = (.ok a, ⟨l.statements ++ ss, p⟩) := by
  obtain ⟨hs, ha⟩ := h l
  generalize x.run.run l = o at hs ha ⊢
  rcases o with ⟨_ | b, l'⟩
  · simp [Except.toOption] at ha
  · obtain rfl : b = a := by simpa [Except.toOption] using ha
    exact ⟨l'.printed, by rw [← hs]⟩

theorem tells_pure : Tells (pure a : StoreM α) [] (some a) :=
  fun _ => ⟨(append_nil _).symm, rfl⟩

theorem tells_say (s : Statement) : Tells (say s) [s] (some ⟨⟩) :=
  fun _ => ⟨rfl, rfl⟩

theorem tells_print (s : String) : Tells (print s) [] (some ⟨⟩) :=
  fun _ => ⟨(append_nil _).symm, rfl⟩

theorem Tells.bind (h : Tells x ss (some a)) (hf : Tells (f a) ts r) :
    Tells (x >>= f) (ss ++ ts) r := by
  intro l
  obtain ⟨p, hx⟩ := h.run_ok l
  simp only [ExceptT.run_bind, StateT.run_bind, hx, ← append_assoc]
  exact hf ⟨l.statements ++ ss, p⟩

theorem Tells.bind_none (h : Tells x ss none) : Tells (x >>= f) ss none := by
  intro l
  obtain ⟨hs, hn⟩ := h l
  simp only [ExceptT.run_bind, StateT.run_bind]
  generalize x.run.run l = o at hs hn ⊢
  rcases o with ⟨_ | b, l'⟩
  · exact ⟨hs, rfl⟩
  · simp [Except.toOption] at hn

theorem Tells.bind_pure {g : α → β} {r : Option α} (h : Tells x ss r) :
    Tells (do pure (g (← x))) ss (r.map g) := by
  cases r
  case none   => exact h.bind_none
  case some a => exact append_nil ss ▸ h.bind tells_pure

theorem tells_forM {g : γ → StoreM PUnit} {xs : List γ} {told : γ → List Statement}
    (h : ∀ x ∈ xs, Tells (g x) (told x) (some ⟨⟩)) :
    Tells (xs.forM g) (xs.flatMap told) (some ⟨⟩) := by
  induction xs
  case nil => exact tells_pure
  case cons x xs ih =>
    obtain ⟨hx, hxs⟩ := forall_mem_cons.mp h
    exact hx.bind (ih hxs)

theorem Files.append (h : Files e ks es (some e')) (h' : Files e' ls fs q) :
    Files e (ks ++ ls) (es ++ fs) q := by
  generalize hr : some e' = r at h
  induction h
  case nil          => exact Option.some.inj hr ▸ h'
  case cons hs _ ih => exact .cons hs (ih hr)
  case stop         => cases hr

theorem Files.append_none (h : Files e ks es none) (ls : List Term) :
    Files e (ks ++ ls) es none := by
  generalize hr : none = r at h
  induction h
  case nil          => cases hr
  case cons hs _ ih => exact .cons hs (ih hr)
  case stop hs      => exact .stop hs

theorem Files.length_eq (h : Files e ks es (some e')) : es.length = ks.length := by
  generalize hr : some e' = r at h
  induction h
  case nil         => rfl
  case cons _ _ ih => simp [ih hr]
  case stop        => cases hr

theorem edge?_meet_of_ownEdge? {s : EdgeSpec} (h : k.ownEdge? = some s) (e : Ends) :
    (e.meet k).edge? k = some s := by
  simp only [ownEdge?, Ends.edge?, Ends.meet] at h ⊢
  cases hd : k.ownDomain? <;> cases hc : k.ownCodomain? <;> simp_all

theorem Files.own (h : Files e ks es q) (hk : ∀ k ∈ ks, k.ownEdge?.isSome) :
    q.isSome ∧ es = ks.filterMap ownEdge? := by
  induction h
  case nil => exact ⟨rfl, rfl⟩
  all_goals
    obtain ⟨ho, hks⟩ := forall_mem_cons.mp hk
    obtain ⟨s, hs⟩ := Option.isSome_iff_exists.mp ho
    have he := edge?_meet_of_ownEdge? hs
  case cons h _ ih =>
    obtain rfl := Option.some.inj (h.symm.trans (he _))
    simpa [hs] using ih hks
  case stop h => simp [he] at h

theorem label_eq_constant {c : KindClass} : c.label = "Constant" ↔ c = .constant := by
  cases c <;> simp [KindClass.label]

theorem tells_addElement (h : k.isLink) (e : Ends) :
    Tells (addElement k.className k e) (((e.meet k).edge? k).toList.map .addEdges)
      (((e.meet k).edge? k).map fun _ => e.meet k) := by
  obtain ⟨hd, ty, d, c, s, rfl⟩ : ∃ hd ty d c s, k = .kind hd ty d c s := by
    cases k
    case kind => exact ⟨_, _, _, _, _, rfl⟩
    all_goals simp [isLink, className] at h
  intro l
  rw [Ends.edge?, Ends.meet, ownDomain?, ownCodomain?, addElement]
  -- what is printed hangs on the own ends, what is said on those that were met last
  generalize endOf (kind hd ty d c s).domain? = x
  generalize endOf (kind hd ty d c s).codomain? = y
  by_cases hc : hd.cls = .constant
  case pos =>
    simp only [hc, Term.edgeBetween, Term.className, KindClass.label, Term.head?, beq_self_eq_true,
      bne_self_eq_false, Bool.not_true, Bool.and_false, if_true]
    cases y.or e.codomain <;> cases y
    case none.none | none.some => exact ⟨(append_nil _).symm, rfl⟩
    all_goals exact ⟨rfl, rfl⟩
  case neg =>
    have hl : (hd.cls.label == "Constant") = false := by simpa [label_eq_constant] using hc
    simp only [edgeBetween, className, hl, label_eq_constant, hc, Bool.false_eq_true, if_false]
    cases x.or e.domain <;> cases y.or e.codomain <;> cases x <;> cases y
    case some.some.none.none | some.some.none.some | some.some.some.none | some.some.some.some =>
      exact ⟨rfl, rfl⟩
    all_goals exact ⟨(append_nil _).symm, rfl⟩

theorem tells_forIn {body : γ → Ends → StoreM (ForInStep Ends)} {xs : List γ} {part : γ → List Term}
    (h : ∀ x ∈ xs, ∀ e, ∃ es q, Files e (part x) es q ∧
      Tells (body x e) (es.map .addEdges) (q.map .yield)) (e : Ends) :
    ∃ es q, Files e (xs.flatMap part) es q ∧ Tells (forIn xs e body) (es.map .addEdges) q := by
  induction xs generalizing e
  case nil => exact ⟨[], _, .nil, tells_pure⟩
  case cons x xs ih =>
    obtain ⟨hx, hxs⟩ := forall_mem_cons.mp h
    obtain ⟨es, q, hf, ht⟩ := hx e
    rw [forIn_cons, flatMap_cons]
    cases q
    case none => exact ⟨es, none, hf.append_none _, ht.bind_none⟩
    case some e' =>
      obtain ⟨fs, r, hg, hu⟩ := ih hxs e'
      exact ⟨es ++ fs, r, hf.append hg, map_append ▸ ht.bind hu⟩

theorem tells_addElements {cls : String} (h : ∀ k ∈ ks, k.isLink ∧ k.className = cls) (e : Ends) :
    ∃ es q, Files e ks es q ∧
      Tells (forIn ks e fun k e => do pure (ForInStep.yield (← addElement cls k e)))
        (es.map .addEdges) q := by
  suffices h : ∀ k ∈ ks, ∀ e, ∃ es q, Files e [k] es q ∧
      Tells (do pure (ForInStep.yield (← addElement cls k e))) (es.map .addEdges) (q.map .yield) by
    simpa using tells_forIn h e
  intro k hk e
  obtain ⟨hl, rfl⟩ := h k hk
  have hx := (tells_addElement hl e).bind_pure (g := ForInStep.yield)
  cases hs : (e.meet k).edge? k <;> rw [hs] at hx
  case none   => exact ⟨[], none, .stop hs, hx⟩
  case some s => exact ⟨[s], _, .cons hs .nil, hx⟩

def members (m : Groups) : List Term := m.flatMap (·.2)

-- Each kind is under its class, and no class is there without a kind.
def Keyed (m : Groups) : Prop := ∀ p ∈ m, p.2 ≠ [] ∧ ∀ k ∈ p.2, k.className = p.1

theorem keyed_alter {m : Groups} (h : Keyed m) (k : Term) :
    Keyed (alter m k.className [] (· ++ [k])) := by
  induction m
  case nil => simp [alter, put, get?, Keyed]
  case cons p m ih =>
    obtain ⟨hp, hm⟩ := forall_mem_cons.mp h
    rw [alter_cons]
    split
    case isTrue hk =>
      refine forall_mem_cons.mpr ⟨?_, hm⟩
      simpa [or_imp, forall_and] using ⟨hp.right, (beq_iff_eq.mp hk).symm⟩
    case isFalse => exact forall_mem_cons.mpr ⟨hp, ih hm⟩

theorem members_alter (m : Groups) (cls : String) (k : Term) :
    (members (alter m cls [] (· ++ [k]))).Perm (k :: members m) := by
  induction m
  case nil => simp [alter, put, get?, members]
  case cons p m ih =>
    rw [alter_cons]
    split
    case isTrue =>
      simp [members]
    case isFalse =>
      exact (ih.append_left p.2).trans perm_middle

theorem group_spec (classes : List String) (ks : List Term) : Keyed (group classes ks) ∧
    (members (group classes ks)).Perm (ks.filter fun k => classes.contains k.className) := by
  rw [group]
  generalize ks.filter _ = ks
  suffices h : ∀ m : Groups, Keyed m →
      Keyed (ks.foldl (fun m k => alter m k.className [] (· ++ [k])) m) ∧
      (members (ks.foldl (fun m k => alter m k.className [] (· ++ [k])) m)).Perm
        (members m ++ ks) by
    simpa [members] using h [] (by simp [Keyed])
  induction ks
  case nil => simp
  case cons k ks ih =>
    intro m hm
    obtain ⟨hk, hp⟩ := ih _ (keyed_alter hm k)
    refine ⟨hk, hp.trans (((members_alter m k.className k).append_right ks).trans ?_)⟩
    exact perm_middle.symm

theorem tells_fillEdges {m : Groups} (hm : Keyed m) :
    ∃ es q, Files {} ((members m).filter isLink) es q ∧
      Tells (fillEdges m) (es.map .addEdges) (q.map fun _ => ()) := by
  rw [members, filter_flatMap, fillEdges]
  suffices h : _ by
    obtain ⟨es, q, hf, ht⟩ := tells_forIn h {}
    exact ⟨es, q, hf, ht.bind_pure⟩
  intro p hp e
  obtain ⟨_, hc⟩ := hm p hp
  have hlink : ∀ k ∈ p.2, k.isLink = ["ObjectTypeRelation", "Variable", "Constant"].contains p.1 :=
    fun k hk => by rw [isLink, hc k hk]
  cases hl : ["ObjectTypeRelation", "Variable", "Constant"].contains p.1 <;> rw [hl] at hlink
  case true =>
    have hop : (p.1 == "Operator") = false := by
      rw [beq_eq_false_iff_ne]
      rintro hop
      simp [hop] at hl
    obtain ⟨es, q, hf, ht⟩ := tells_addElements (fun k hk => ⟨hlink k hk, hc k hk⟩) e
    refine ⟨es, q, (filter_eq_self.mpr hlink).symm ▸ hf, ?_⟩
    dsimp only
    rw [hl, hop]
    exact ht.bind_pure
  case false =>
    refine ⟨[], some e, filter_eq_nil_iff.mpr (by simpa using hlink) ▸ .nil, ?_⟩
    dsimp only
    rw [hl, if_neg Bool.false_ne_true]
    split
    · exact (tells_print _).bind tells_pure
    · exact tells_pure

theorem filter_isLink_divide (ks : List Term) :
    ((members (divide ks Demonstration.typeClasses Demonstration.elementClasses).2).filter
      isLink).Perm (ks.filter isLink) := by
  refine ((group_spec _ ks).right.filter isLink).trans (.of_eq ?_)
  rw [filter_filter]
  refine filter_congr fun k _ => ?_
  rw [Bool.and_eq_left_iff_imp, isLink, contains_iff_mem]
  generalize k.className = cls
  revert cls
  decide

-- Each element becomes an edge between its own ends exactly if none of them lacks an end. Else one
-- of them is filed between the ends of another one, or the filing stops there.
theorem own_ends_iff (ks : List Term) : ∃ ls es q,
    ls.Perm (ks.filter Term.isLink) ∧ Files {} ls es q ∧
    let o := run (fillEdges (divide ks Demonstration.typeClasses Demonstration.elementClasses).2)
    o.2.statements = es.map .addEdges ∧ o.1.toOption = q.map (fun _ => ()) ∧
    (o.1.toOption.isSome ∧
        o.2.statements.Perm (((ks.filter Term.isLink).filterMap Term.ownEdge?).map .addEdges) ↔
      ∀ k ∈ ks, k.isLink → k.ownEdge?.isSome) := by
  have hp := filter_isLink_divide ks
  have hm : Keyed (divide ks Demonstration.typeClasses Demonstration.elementClasses).2 :=
    (group_spec _ ks).left
  obtain ⟨es, q, hf, ht⟩ := tells_fillEdges hm
  obtain ⟨hs, ho⟩ := ht {}
  refine ⟨_, es, q, hp, hf, hs, ho, ?_⟩
  rw [run, hs, ho]
  constructor
  · rintro ⟨hq, hperm⟩
    obtain ⟨e, rfl⟩ := Option.isSome_iff_exists.mp (by simpa using hq)
    have hl : ((ks.filter Term.isLink).filterMap Term.ownEdge?).length =
        (ks.filter Term.isLink).length := by
      rw [← hp.length_eq, ← hf.length_eq]
      simpa using hperm.length_eq.symm
    simpa using List.filterMap_length_eq_length.mp hl
  · intro hk
    obtain ⟨hq, rfl⟩ := hf.own fun k hm => by
      have hm := hp.mem_iff.mp hm
      exact hk k (List.mem_of_mem_filter hm) (List.of_mem_filter hm)
    exact ⟨by simpa using hq, (hp.filterMap _).map _⟩

end Store
end Inquiry
