import Mathlib
import Inquiry.Proofs.Sql.LeafColumns

/-!
The columns that the joins of a query equate. A product joins its arguments on all columns of their
domains. An aggregation and an inclusion join theirs on the first column only, so the whole domain
is joined on exactly if the other columns are equated already.
-/

namespace Inquiry

open List

namespace Sql

open SessionM

abbrev Place := String × String

def Item.place? : Item → Option Place
  | column _ t n _ => some (t, n)
  | expr ..        => none

-- The places of pairs of columns, each in either order.
def paired (ps : List (Item × Item)) : List (Sym2 Place) :=
  ps.filterMap fun p => do return s(← p.1.place?, ← p.2.place?)

-- The columns that the conditions of a join equate.
def Join.equated (j : Join) : List (Sym2 Place) :=
  paired (j.conds.map fun c => (c.lhs, c.rhs))

def equated (js : List Join) : List (Sym2 Place) :=
  js.flatMap Join.equated

-- The pairs of columns that lie in different tables.
def differing (ps : List (Item × Item)) : List (Sym2 Place) :=
  (paired ps).filter fun z => ¬(z.map Prod.fst).IsDiag

-- The columns of two domains that lie in different tables, each with its counterpart.
def apart (ds es : List Item) : List (Sym2 Place) :=
  differing (ds.zip es)

@[simp]
theorem Item.place?_column (c : Nat) (t n : String) (a : Option String) :
    (column c t n a).place? = some (t, n) := rfl

variable {s s' : Session} {i k : Item} {p p' : Place} {z : Sym2 Place} {ds es : List Item}

@[simp]
theorem paired_append (ps qs : List (Item × Item)) :
    paired (ps ++ qs) = paired ps ++ paired qs := by
  simp [paired]

theorem paired_pair (hi : i.place? = some p) (hk : k.place? = some p') :
    paired [(i, k)] = [s(p, p')] := by
  simp [paired, hi, hk]

theorem paired_flatMap (f : α → List (Item × Item)) (as : List α) :
    paired (as.flatMap f) = as.flatMap fun a => paired (f a) := by
  simp [paired, filterMap_flatMap]

theorem mem_paired {ps : List (Item × Item)} : z ∈ paired ps ↔
    ∃ x ∈ ps, ∃ p p', x.1.place? = some p ∧ x.2.place? = some p' ∧ s(p, p') = z := by
  simp [paired, Option.bind_eq_some_iff]

theorem equated_append (js ks : List Join) : equated (js ++ ks) = equated js ++ equated ks := by
  simp [equated]

theorem equated_flatten (jss : List (List Join)) :
    equated jss.flatten = (jss.map equated).flatten := by
  induction jss
  case nil => rfl
  case cons js jss ih => simp [equated_append, ih]

theorem differing_append (ps qs : List (Item × Item)) :
    differing (ps ++ qs) = differing ps ++ differing qs := by
  simp [differing]

theorem mem_differing {ps : List (Item × Item)} : z ∈ differing ps ↔ ∃ x ∈ ps, ∃ p p',
    x.1.place? = some p ∧ x.2.place? = some p' ∧ p.1 ≠ p'.1 ∧ s(p, p') = z := by
  simp only [differing, mem_filter, mem_paired, decide_eq_true_eq]
  constructor
  · rintro ⟨⟨x, hx, p, p', hp, hp', rfl⟩, hd⟩
    exact ⟨x, hx, p, p', hp, hp', by simpa using hd, rfl⟩
  · rintro ⟨x, hx, p, p', hp, hp', hd, rfl⟩
    exact ⟨⟨x, hx, p, p', hp, hp', rfl⟩, by simpa using hd⟩

theorem mem_apart_comm : z ∈ apart ds es ↔ z ∈ apart es ds := by
  suffices h : ∀ ds es, z ∈ apart ds es → z ∈ apart es ds from ⟨h ds es, h es ds⟩
  intro ds es h
  obtain ⟨⟨d, e⟩, hx, p, p', hp, hp', hd, rfl⟩ := mem_differing.mp h
  have hx : (e, d) ∈ es.zip ds := by
    rw [← zip_swap]
    exact mem_map_of_mem hx
  exact mem_differing.mpr ⟨(e, d), hx, p', p, hp', hp, hd.symm, Sym2.eq_swap⟩

theorem apart_take (hd : ds[0]? = some i) (he : es[0]? = some k) (hi : i.place? = some p)
    (hk : k.place? = some p') :
    apart (ds.take 1) (es.take 1) = if p.1 = p'.1 then [] else [s(p, p')] := by
  have hds : ds.take 1 = [i] := by simp [take_one, head?_eq_getElem?, hd]
  have hes : es.take 1 = [k] := by simp [take_one, head?_eq_getElem?, he]
  have hz : (s(p, p').map Prod.fst).IsDiag ↔ p.1 = p'.1 := by simp
  rw [apart, hds, hes, differing, zip_cons_cons, zip_nil_right, paired_pair hi hk]
  split <;> simp [*]

theorem apart_take_drop (ds es : List Item) :
    apart ds es = apart (ds.take 1) (es.take 1) ++ apart (ds.drop 1) (es.drop 1) := by
  cases ds
  case nil => simp [apart, differing, paired]
  case cons d ds =>
    cases es
    case nil => simp [apart, differing, paired]
    case cons e es => exact differing_append [(d, e)] (ds.zip es)

theorem Item.bare_gives (h : i.bare.Gives s k s') : ∃ t n, i.place? = some (t, n) ∧
    ∃ part, k = .column part t n none := by
  unfold bare at h
  split at h
  case h_1 t n _ =>
    obtain ⟨part, _, rfl⟩ := gives_bind_pure.mp h
    exact ⟨t, n, rfl, part, rfl⟩
  case h_2 => exact absurd h gives_throw

theorem Item.place?_of_bare (h : i.bare.Gives s k s') : k.place? = i.place? := by
  obtain ⟨t, n, hi, part, rfl⟩ := bare_gives h
  exact hi.symm

theorem Item.place?_of_table {t : String} (h : i.table = .ok t) : ∃ n, i.place? = some (t, n) := by
  cases i
  case column t' n _ =>
    obtain rfl : t' = t := Except.ok.inj h
    exact ⟨n, rfl⟩
  case expr => cases h

theorem Item.name_eq_of_text {t n m : String} {a b : Nat}
    (h : (column a t n none).text = (column b t m none).text) : n = m := by
  simp only [text, Option.elim_none, String.append_empty, Except.ok.injEq] at h
  split at h
  · exact h
  · simpa [String.append_assoc, String.append_right_inj] using h

namespace Join

variable {j : Join} {t a : String} {ps : List (Item × Item)} {n : String}

theorem create_gives (h : (create t a ps).Gives s j s') : j.table = t ∧
    j.conds.map (fun c => (c.lhs, c.rhs)) = ps := by
  obtain ⟨conds, s₁, hconds, h⟩ := gives_bind.mp h
  obtain ⟨part, _, rfl⟩ := gives_bind_pure.mp h
  have hps : Forall₂ (fun p c => p = (c.lhs, c.rhs)) ps conds := by
    refine hconds.mapM_forall₂ fun p _ c _ _ hc => ?_
    obtain ⟨part, _, rfl⟩ := gives_bind_pure.mp hc
    rfl
  have he := map_eq_map_of_forall₂ hps (f := id) (g := fun c : Cond => (c.lhs, c.rhs))
    fun _ _ he => he
  exact ⟨rfl, by simpa using he.symm⟩

theorem equated_of_create (h : (create t a ps).Gives s j s') : j.equated = paired ps := by
  rw [equated, (create_gives h).2]

-- Joins that count as one are of one table and read alike on the right.
theorem alike_eq_ok {k : Join} (h : k.alike j = .ok true) : k.table = j.table ∧
    ∀ x ∈ k.conds.zip j.conds, ∃ text, x.1.rhs.text = .ok text ∧ x.2.rhs.text = .ok text := by
  unfold alike at h
  split at h
  case isTrue  => simp at h
  case isFalse hne =>
    simp only [Bool.or_eq_true, bne_iff_ne, ne_eq, not_or, not_not] at hne
    refine ⟨hne.1, fun x hx => ?_⟩
    obtain ⟨_, _, h⟩ := bind_eq_ok.mp (allM_eq_true h x hx)
    obtain ⟨_, _, h⟩ := bind_eq_ok.mp h
    split at h
    case isTrue  => simp at h
    case isFalse =>
      obtain ⟨text, ht, h⟩ := bind_eq_ok.mp h
      obtain ⟨text', ht', h⟩ := bind_eq_ok.mp h
      obtain rfl : text = text' := by simpa using h
      exact ⟨text, ht, ht'⟩

-- A join on one pair of columns, the second of which is one of the joined table.
def On (j : Join) (p : Place) (n : String) : Prop :=
  ∃ c part, j.conds = [c] ∧ c.lhs.place? = some p ∧ c.rhs = .column part j.table n none

theorem On.of_create {x : Item} {c : Nat} (hx : x.place? = some p)
    (h : (create t a [(x, .column c t n none)]).Gives s j s') : j.On p n := by
  obtain ⟨rfl, hconds⟩ := create_gives h
  obtain ⟨d, hd, hd'⟩ := map_eq_singleton_iff.mp hconds
  obtain ⟨rfl, hr⟩ := Prod.mk.inj hd'
  exact ⟨d, c, hd, hx, hr⟩

theorem On.equated_eq (h : j.On p n) : j.equated = [s(p, (j.table, n))] := by
  obtain ⟨c, part, hc, hl, hr⟩ := h
  simp [equated, hc, hr, paired_pair hl (Item.place?_column part j.table n none)]

theorem On.equated_eq_of_alike {k : Join} {m : String} (hj : j.On p n) (hk : k.On p m)
    (h : k.alike j = .ok true) : k.equated = j.equated := by
  rw [hj.equated_eq, hk.equated_eq]
  obtain ⟨ht, hconds⟩ := alike_eq_ok h
  obtain ⟨c, _, hc, _, hr⟩ := hj
  obtain ⟨d, _, hd, _, hr'⟩ := hk
  obtain ⟨text, htext, htext'⟩ := hconds (d, c) (by simp [hc, hd])
  rw [hr', ht] at htext
  rw [hr] at htext'
  rw [ht, Item.name_eq_of_text (htext.trans htext'.symm)]

end Join

namespace Body

variable {b b' : Body} {j : Join} {js : List Join}

theorem addJoin_eq_ok (h : b.addJoin j = .ok b') :
    b'.joins = b.joins ++ [j] ∨ b' = b ∧ ∃ k ∈ b.joins, k.alike j = .ok true := by
  obtain ⟨found, hf, h⟩ := bind_eq_ok.mp h
  cases found
  case true =>
    obtain rfl := Except.ok.inj h
    exact .inr ⟨rfl, exists_of_anyM hf⟩
  case false =>
    obtain rfl := Except.ok.inj h
    exact .inl rfl

-- The joins that are left out are like ones that are there.
theorem foldlM_addJoin (h : js.foldlM addJoin b = .ok b') : ∃ kept, kept <+ js ∧
    b'.joins = b.joins ++ kept ∧
      ∀ j ∈ js, j ∈ kept ∨ ∃ k ∈ b.joins ++ kept, k.alike j = .ok true := by
  induction js generalizing b
  case nil =>
    obtain rfl := Except.ok.inj h
    exact ⟨[], .refl _, by simp, nofun⟩
  case cons j js ih =>
    rw [foldlM_cons] at h
    obtain ⟨b₁, hb₁, h⟩ := bind_eq_ok.mp h
    obtain ⟨kept, hsub, hj, hall⟩ := ih h
    obtain hb₁ | ⟨rfl, k, hk, halike⟩ := addJoin_eq_ok hb₁
    · have hj : b'.joins = b.joins ++ j :: kept := by simp [hj, hb₁]
      refine ⟨j :: kept, hsub.cons_cons j, hj, forall_mem_cons.mpr ⟨by simp, fun i hi => ?_⟩⟩
      refine (hall i hi).imp (mem_cons_of_mem j) ?_
      rintro ⟨k, hk, halike⟩
      exact ⟨k, by simpa [hb₁] using hk, halike⟩
    · refine ⟨kept, hsub.cons j, hj, forall_mem_cons.mpr ⟨.inr ⟨k, ?_, halike⟩, hall⟩⟩
      exact mem_append_left kept hk

theorem foldlM_addWhere {cs : List Cond} (h : cs.foldlM addWhere b = .ok b') :
    b'.joins = b.joins := by
  induction cs generalizing b
  case nil =>
    obtain rfl := Except.ok.inj h
    rfl
  case cons c cs ih =>
    rw [foldlM_cons] at h
    obtain ⟨b₁, hb₁, h⟩ := bind_eq_ok.mp h
    obtain ⟨found, _, hb₁⟩ := bind_eq_ok.mp hb₁
    cases found <;> obtain rfl := Except.ok.inj hb₁ <;> simpa using ih h

-- Of some joins and others after them, the first ones are kept or stood for by a first one.
theorem tidy_append {own inherited : List Join} (hb : b.joins = own ++ inherited)
    (h : b.tidy = .ok b') : ∃ kept rest, kept <+ own ∧ rest <+ inherited ∧
      b'.joins = kept ++ rest ∧ ∀ j ∈ own, j ∈ kept ∨ ∃ k ∈ kept, k.alike j = .ok true := by
  obtain ⟨b₂, hb₂, h⟩ := bind_eq_ok.mp h
  rw [hb, foldlM_append] at hb₂
  obtain ⟨b₁, hb₁, hb₂⟩ := bind_eq_ok.mp hb₂
  obtain ⟨kept, hkept, hj₁, hall⟩ := foldlM_addJoin hb₁
  obtain ⟨rest, hrest, hj₂, _⟩ := foldlM_addJoin hb₂
  exact ⟨kept, rest, hkept, hrest, by simp [foldlM_addWhere h, hj₂, hj₁], by simpa using hall⟩

-- What a new query equates: the columns of its own joins, and those of joins that it takes over.
theorem create_equated {frozen : List Frozen} {q : Query} {own inherited : List Join}
    (hb : b.joins = own ++ inherited)
    (hown : ∀ j ∈ own, ∀ k ∈ own, k.alike j = .ok true → k.equated = j.equated)
    (h : (Query.create b frozen).Gives s q s') : ∃ rest, rest <+ inherited ∧
      ∀ z, z ∈ Sql.equated q.joins ↔ z ∈ Sql.equated own ∨ z ∈ Sql.equated rest := by
  obtain ⟨b', _, hb', h⟩ := gives_bind.mp h
  obtain ⟨hb', _⟩ := gives_ofExcept.mp hb'
  obtain ⟨part, _, rfl⟩ := gives_bind_pure.mp h
  obtain ⟨kept, rest, hkept, hrest, hj, hall⟩ := tidy_append hb hb'
  refine ⟨rest, hrest, fun z => ?_⟩
  have hz : z ∈ Sql.equated kept ↔ z ∈ Sql.equated own := by
    simp only [Sql.equated, mem_flatMap]
    constructor
    · rintro ⟨j, hj, hz⟩
      exact ⟨j, hkept.subset hj, hz⟩
    · rintro ⟨j, hj, hz⟩
      obtain hj' | ⟨k, hk, halike⟩ := hall j hj
      · exact ⟨j, hj', hz⟩
      · exact ⟨k, hk, hown j hj k (hkept.subset hk) halike ▸ hz⟩
  rw [show b'.joins = kept ++ rest from hj, equated_append, mem_append, hz]

end Body

section Product

variable {js js' : List (String × List (Item × Item))} {t : String} {x y : Item × Item}

theorem mem_joinOn : y ∈ (joinOn js t x).flatMap Prod.snd ↔ y ∈ js.flatMap Prod.snd ∨ y = x := by
  induction js
  case nil => simp [joinOn]
  case cons j js ih =>
    rw [joinOn]
    split
    · simp only [flatMap_cons, mem_append, mem_singleton]
      tauto
    · simp only [flatMap_cons, mem_append, ih]
      tauto

theorem joinOn_tables : ∀ t' ∈ (joinOn js t x).map Prod.fst, t' ∈ js.map Prod.fst ∨ t' = t := by
  induction js
  case nil => simp [joinOn]
  case cons j js ih =>
    intro t' h
    rw [joinOn] at h
    split at h
    · exact .inl h
    · rw [map_cons, mem_cons] at h
      rw [map_cons, mem_cons, or_assoc]
      exact h.imp_right (ih t')

theorem joinOn_nodup (h : (js.map Prod.fst).Nodup) : ((joinOn js t x).map Prod.fst).Nodup := by
  induction js
  case nil => simp [joinOn]
  case cons j js ih =>
    rw [map_cons, nodup_cons] at h
    rw [joinOn]
    split
    case isTrue => exact nodup_cons.mpr h
    case isFalse hne =>
      refine nodup_cons.mpr ⟨fun hj => ?_, ih h.2⟩
      obtain hj | hj := joinOn_tables j.1 hj
      · exact h.1 hj
      · exact hne (by simpa using hj)

-- One join for each table, on the pairs of columns that are given.
structure Collected (zs : List (Sym2 Place)) (js : List (String × List (Item × Item))) : Prop where
  nodup : (js.map Prod.fst).Nodup
  mem   : ∀ z, z ∈ paired (js.flatMap Prod.snd) ↔ z ∈ zs

namespace Collected

variable {zs : List (Sym2 Place)} {first : List Item}

theorem joinOn (h : Collected zs js) (hx : x.1.place? = some p) (hx' : x.2.place? = some p') :
    Collected (zs ++ [s(p, p')]) (joinOn js t x) where
  nodup := joinOn_nodup h.nodup
  mem z := by
    have hz := h.mem z
    simp only [mem_paired] at hz
    simp only [mem_paired, mem_joinOn, or_and_right, exists_or, hz, mem_append,
      mem_singleton, exists_eq_left]
    simp [hx, hx', eq_comm]

theorem joinDomains {q : Query} (h : Collected zs js)
    (hq : (joinDomains first js q).Gives s js' s') :
    Collected (zs ++ apart q.domain first) js' := by
  have J := hq.foldlM (J := fun done _ js' => Collected (zs ++ differing done) js')
    (by simpa [differing, paired] using h)
  refine J fun done x rest s js₁ js₂ s' _ h h' => ?_
  obtain ⟨other, dim⟩ := x
  obtain ⟨t, _, ht, h'⟩ := gives_bind.mp h'
  obtain ⟨u, _, hu, h'⟩ := gives_bind.mp h'
  obtain ⟨n, hn⟩ := Item.place?_of_table (gives_ofExcept.mp ht).1
  obtain ⟨m, hm⟩ := Item.place?_of_table (gives_ofExcept.mp hu).1
  rw [differing_append, ← append_assoc]
  split at h'
  case isTrue he =>
    obtain ⟨rfl, _⟩ := gives_pure.mp h'
    have hd : differing [(other, dim)] = [] := by simpa [differing, paired, hn, hm] using he
    rwa [hd, append_nil]
  case isFalse hne =>
    obtain ⟨dim', _, hdim, h'⟩ := gives_bind.mp h'
    obtain ⟨other', hother, rfl⟩ := gives_bind_pure.mp h'
    have hd : differing [(other, dim)] = [s((u, m), (t, n))] := by
      simpa [differing, paired, hn, hm, Sym2.eq_swap] using hne
    rw [hd]
    exact h.joinOn (Item.place?_of_bare hdim ▸ hm) (Item.place?_of_bare hother ▸ hn)

theorem foldlM {qs : List Query} (h : (qs.foldlM (Sql.joinDomains first) []).Gives s js s') :
    Collected (qs.flatMap fun q => apart q.domain first) js := by
  refine h.foldlM (J := fun done _ js => Collected (done.flatMap fun q => apart q.domain first) js)
    ⟨by simp, by simp [paired]⟩ fun done q rest s js₁ js₂ s' _ h hq => ?_
  simpa using h.joinDomains hq

theorem creates {joins : List Join} (h : Collected zs js)
    (hj : (js.mapM fun j => Join.create j.1 "" j.2).Gives s joins s') :
    (joins.map (·.table)).Nodup ∧ ∀ z, z ∈ equated joins ↔ z ∈ zs := by
  have hall : Forall₂ (fun n j => n.1 = j.table ∧ paired n.2 = j.equated) js joins :=
    hj.mapM_forall₂ fun n _ j s s' h =>
      ⟨(Join.create_gives h).1.symm, (Join.equated_of_create h).symm⟩
  have htables := map_eq_map_of_forall₂ hall (f := Prod.fst) (g := fun j : Join => j.table)
    fun _ _ h => h.1
  have hpairs := map_eq_map_of_forall₂ hall (f := fun n => paired n.2) (g := Join.equated)
    fun _ _ h => h.2
  refine ⟨htables ▸ h.nodup, fun z => ?_⟩
  rw [← h.mem, equated, flatMap_def, ← hpairs, ← flatMap_def, paired_flatMap]

end Collected

end Product

-- What a query equates: some columns of its own, and what joins that it takes over equate.
def Body.Equates (b : Body) (own : List (Sym2 Place)) (inherited : List Join) : Prop :=
  ∃ rest, rest <+ inherited ∧ ∀ z, z ∈ equated b.joins ↔ z ∈ own ∨ z ∈ equated rest

section Operations

variable {sw : Switches} {cs : List Compiled} {s₁ : Session} {v w q : Query} {others : List Query}

theorem getElem?_of_get {xs : List α} {n : Nat} {x : α} (h : (get xs n).Gives s x s') :
    xs[n]? = some x :=
  Sequence.getElem?_of_get (gives_ofExcept.mp h).1

theorem queries_eq {qs qs' : List Query}
    (h : ((qs.map Compiled.query).mapM Compiled.asQuery).Gives s qs' s') : qs' = qs := by
  rw [mapM_map] at h
  have hall : Forall₂ (fun q q' => q = q') qs qs' :=
    h.mapM_forall₂ fun q _ q' _ _ h => (gives_pure.mp h).1
  exact (forall₂_eq_eq_eq ▸ hall).symm

theorem compileProduct_equates
    (hcs : (cs.mapM (freezeGrouped sw)).Gives s ((v :: others).map .query) s₁)
    (h : (compileProduct sw cs).Gives s (.query q) s') :
    q.Equates (others.flatMap fun w => apart w.domain v.domain)
      ((v :: others).flatMap fun q => q.joins) := by
  unfold compileProduct at h
  split at h
  case h_1 =>
    obtain ⟨dims, _, _, h⟩ := gives_bind.mp h
    cases (gives_pure.mp h).1
  case h_2 =>
    replace h := hcs.bind_iff.mp h
    obtain ⟨qs, _, hqs, h⟩ := gives_bind.mp h
    obtain rfl := queries_eq hqs
    obtain ⟨first, _, hfirst, h⟩ := gives_bind.mp h
    obtain rfl : v = first := by simpa using getElem?_of_get hfirst
    obtain ⟨new, _, hnew, h⟩ := gives_bind.mp h
    obtain ⟨joins, _, hjoins, h⟩ := gives_bind.mp h
    obtain ⟨q', hq, he⟩ := gives_map.mp h
    obtain rfl : q' = q := by simpa using he
    obtain ⟨hnodup, hmem⟩ := (Collected.foldlM hnew).creates hjoins
    have hown : ∀ j ∈ joins, ∀ k ∈ joins, k.alike j = .ok true → k.equated = j.equated := by
      intro j hj k hk halike
      rw [inj_on_of_nodup_map hnodup hk hj ((Join.alike_eq_ok halike).1)]
    obtain ⟨rest, hrest, hz⟩ := Body.create_equated rfl hown hq
    exact ⟨rest, hrest, fun z => by rw [hz, hmem]; rfl⟩

-- The join of the first columns of two domains; there is none if these lie in one table.
theorem joinFirst_gives {own : List Join} (h : (do
      let dim ← get w.domain 0
      let own ← get v.domain 0
      let t ← ofExcept dim.table
      if t == (← ofExcept own.table) then return []
      return [← Join.create t "" [(← own.bare, ← dim.bare)]]
      : SessionM (List Join)).Gives s own s') :
    equated own = apart (v.domain.take 1) (w.domain.take 1) ∧
      ∀ j ∈ own, ∃ p n, v.domain.head?.bind Item.place? = some p ∧ j.On p n := by
  obtain ⟨y, _, hy, h⟩ := gives_bind.mp h
  obtain ⟨x, _, hx, h⟩ := gives_bind.mp h
  obtain ⟨u, _, hu, h⟩ := gives_bind.mp h
  obtain ⟨t, _, ht, h⟩ := gives_bind.mp h
  obtain ⟨m, hm⟩ := Item.place?_of_table (gives_ofExcept.mp hu).1
  obtain ⟨n, hn⟩ := Item.place?_of_table (gives_ofExcept.mp ht).1
  rw [apart_take (getElem?_of_get hx) (getElem?_of_get hy) hn hm]
  split at h
  case isTrue he =>
    obtain ⟨rfl, _⟩ := gives_pure.mp h
    simp [(beq_iff_eq.mp he).symm, equated]
  case isFalse hne =>
    have hne : t ≠ u := fun he => hne (beq_iff_eq.mpr he.symm)
    obtain ⟨x', _, hx', h⟩ := gives_bind.mp h
    obtain ⟨y', _, hy', h⟩ := gives_bind.mp h
    obtain ⟨j, hj, rfl⟩ := gives_bind_pure.mp h
    obtain ⟨u', m', hm', part, rfl⟩ := Item.bare_gives hy'
    obtain ⟨rfl, rfl⟩ : u = u' ∧ m = m' := by simpa [hm] using hm'
    have hon : j.On (t, n) m := .of_create (Item.place?_of_bare hx' ▸ hn) hj
    refine ⟨?_, forall_mem_singleton.mpr ⟨(t, n), m, ?_, hon⟩⟩
    · simp [hne, equated, hon.equated_eq, (Join.create_gives hj).1]
    · simp [head?_eq_getElem?, getElem?_of_get hx, hn]

theorem compileInclusion_equates
    (hcs : (cs.mapM (freezeGrouped sw)).Gives s ((v :: others).map .query) s₁)
    (h : (compileInclusion sw cs).Gives s (.query q) s') :
    q.Equates (others.flatMap fun w => apart (v.domain.take 1) (w.domain.take 1))
      ((v :: others).flatMap fun q => q.joins) := by
  replace h := hcs.bind_iff.mp h
  obtain ⟨qs, _, hqs, h⟩ := gives_bind.mp h
  obtain rfl := queries_eq hqs
  obtain ⟨first, _, hfirst, h⟩ := gives_bind.mp h
  obtain rfl : v = first := by simpa using getElem?_of_get hfirst
  obtain ⟨joins, _, hjoins, h⟩ := gives_bind.mp h
  obtain ⟨codomain, _, _, h⟩ := gives_bind.mp h
  obtain ⟨conds, _, _, h⟩ := gives_bind.mp h
  obtain ⟨q', hq, he⟩ := gives_map.mp h
  obtain rfl : q' = q := by simpa using he
  have hall := hjoins.mapM_forall₂ fun w _ own a b h => joinFirst_gives h
  have hown : equated joins.flatten =
      others.flatMap fun w => apart (v.domain.take 1) (w.domain.take 1) := by
    have he := map_eq_map_of_forall₂ hall
      (f := fun w => apart (v.domain.take 1) (w.domain.take 1)) (g := equated) fun _ _ h => h.1.symm
    rw [equated_flatten, ← he]
    rfl
  have hon : ∀ j ∈ joins.flatten, ∃ p n, v.domain.head?.bind Item.place? = some p ∧ j.On p n := by
    intro j hj
    obtain ⟨own, ho, hj⟩ := mem_flatten.mp hj
    obtain ⟨w, _, _, h⟩ := exists_of_mem_right hall ho
    exact h j hj
  rw [← hown]
  refine Body.create_equated rfl (fun j hj k hk halike => ?_) hq
  obtain ⟨p, n, hp, hj⟩ := hon j hj
  obtain ⟨p', m, hp', hk⟩ := hon k hk
  obtain rfl : p = p' := by simpa [hp] using hp'
  exact hj.equated_eq_of_alike hk halike

theorem compileAggregation_equates
    (hcs : (cs.mapM (freezeGrouped sw)).Gives s ((v :: w :: others).map .query) s₁)
    (hv : ∀ i ∈ v.domain, i.table ≠ .ok "") (hw : ∀ i ∈ w.domain, i.table ≠ .ok "")
    (h : (compileAggregation sw cs).Gives s (.query q) s') :
    q.Equates (apart (v.domain.take 1) (w.domain.take 1)) (v.joins ++ w.joins) := by
  replace h := hcs.bind_iff.mp h
  obtain ⟨c, _, hc, h⟩ := gives_bind.mp h
  obtain rfl : .query w = c := by simpa using getElem?_of_get hc
  obtain ⟨w', _, hw', h⟩ := gives_bind.mp h
  obtain rfl : w = w' := (gives_pure.mp hw').1
  obtain ⟨c, _, hc, h⟩ := gives_bind.mp h
  obtain rfl : .query v = c := by simpa using getElem?_of_get hc
  obtain ⟨v', _, hv', h⟩ := gives_bind.mp h
  obtain rfl : v = v' := (gives_pure.mp hv').1
  obtain ⟨x, _, hx, h⟩ := gives_bind.mp h
  obtain ⟨t, _, ht, h⟩ := gives_bind.mp h
  -- the branches differ in the joins that they go on with
  extract_lets make at h
  have hmake : ∀ joins a, (∀ j ∈ joins, ∀ k ∈ joins, k = j) → (make joins).Gives a (.query q) s' →
      q.Equates (equated joins) (v.joins ++ w.joins) := by
    intro joins a hone h
    obtain ⟨codomain, _, _, h⟩ := gives_bind.mp h
    obtain ⟨grouped, _, _, h⟩ := gives_bind.mp h
    obtain ⟨columns, _, _, h⟩ := gives_bind.mp h
    obtain ⟨q', hq, he⟩ := gives_map.mp h
    obtain rfl : q' = q := by simpa using he
    refine Body.create_equated (append_assoc ..) (fun j hj k hk _ => ?_) hq
    rw [hone j hj k hk]
  have hx := getElem?_of_get hx
  obtain ⟨ht, _⟩ := gives_ofExcept.mp ht
  obtain ⟨n, hn⟩ := Item.place?_of_table ht
  split at h
  case isTrue hempty =>
    exact absurd (String.isEmpty_iff.mp hempty ▸ ht) (hv x (mem_of_getElem? hx))
  case isFalse =>
    obtain ⟨y, _, hy, h⟩ := gives_bind.mp h
    obtain ⟨u, _, hu, h⟩ := gives_bind.mp h
    have hy := getElem?_of_get hy
    obtain ⟨hu, _⟩ := gives_ofExcept.mp hu
    obtain ⟨m, hm⟩ := Item.place?_of_table hu
    have hne : u ≠ "" := fun he => hw y (mem_of_getElem? hy) (he ▸ hu)
    rw [apart_take hx hy hn hm]
    split at h
    case isTrue he =>
      have he : t = u := by simpa [hne] using he
      simpa [he, equated] using hmake [] _ (by simp) h
    case isFalse he =>
      have he : t ≠ u := by simpa [hne] using he
      obtain ⟨x', _, hx', h⟩ := gives_bind.mp h
      obtain ⟨y', _, hy', h⟩ := gives_bind.mp h
      obtain ⟨j, _, hj, h⟩ := gives_bind.mp h
      have hj := (Join.equated_of_create hj).trans
        (paired_pair (Item.place?_of_bare hx' ▸ hn) (Item.place?_of_bare hy' ▸ hm))
      simpa [he, equated, hj] using hmake [j] _ (by simp) h

end Operations

-- The queries that the arguments of an operation become, grouped ones being kept as tables.
def Arguments (r : Setting) (args : List Term) (s : Session) (qs : List Query) : Prop :=
  ∃ cs s₀ s₁, (compileTerm.compileAll r args).Gives s cs s₀ ∧
    (cs.mapM (freezeGrouped r.switches)).Gives s₀ (qs.map .query) s₁

-- Where the first columns are equated, the whole domains are if the other columns are as well.
theorem apart_subset_iff {zs : List (Sym2 Place)} {P : Sym2 Place → Prop} (hzs : ∀ z, z ∈ zs ↔ P z)
    (h : ∀ z ∈ apart (ds.take 1) (es.take 1), P z) :
    apart ds es ⊆ zs ↔ ∀ z ∈ apart (ds.drop 1) (es.drop 1), P z := by
  rw [apart_take_drop, append_subset]
  simp only [subset_def, hzs]
  exact and_iff_right fun {z} => h z

/-- A product joins its arguments on the whole of their domains. An inclusion and an aggregation
join theirs on the first columns, and take over joins of the arguments; so the whole domains are
joined on exactly if the other columns are equated by one of these already. -/
theorem whole_domains_equated_iff (r : Setting) (n : Nat) (ty : Option Term) (args : List Term)
    (s s' : Session) (v w q : Query) (others : List Query)
    (hargs : Arguments r args s (v :: w :: others)) :
    ((compileTerm r (.app n .product args ty)).Gives s (.query q) s' →
      ∀ u ∈ w :: others, apart v.domain u.domain ⊆ equated q.joins) ∧
    ((compileTerm r (.app n .inclusion args ty)).Gives s (.query q) s' →
      ∃ rest, rest <+ (v :: w :: others).flatMap (fun q => q.joins) ∧
        (∀ z, z ∈ equated q.joins ↔
          (∃ u ∈ w :: others, z ∈ apart (v.domain.take 1) (u.domain.take 1)) ∨ z ∈ equated rest) ∧
        ∀ u ∈ w :: others, apart v.domain u.domain ⊆ equated q.joins ↔
          ∀ z ∈ apart (v.domain.drop 1) (u.domain.drop 1),
            (∃ u ∈ w :: others, z ∈ apart (v.domain.take 1) (u.domain.take 1)) ∨
              z ∈ equated rest) ∧
    ((compileTerm r (.app n .aggregation args ty)).Gives s (.query q) s' →
      (∀ i ∈ v.domain ++ w.domain, i.table ≠ .ok "") →
      ∃ rest, rest <+ v.joins ++ w.joins ∧
        (∀ z, z ∈ equated q.joins ↔
          z ∈ apart (v.domain.take 1) (w.domain.take 1) ∨ z ∈ equated rest) ∧
        (apart v.domain w.domain ⊆ equated q.joins ↔
          ∀ z ∈ apart (v.domain.drop 1) (w.domain.drop 1),
            z ∈ apart (v.domain.take 1) (w.domain.take 1) ∨ z ∈ equated rest)) := by
  obtain ⟨cs, s₀, s₁, hcs, hqs⟩ := hargs
  refine ⟨fun h u hu z hz => ?_, fun h => ?_, fun h htables => ?_⟩
  case refine_1 =>
    obtain ⟨cs', _, hcs', h⟩ := gives_bind.mp h
    obtain ⟨rfl, rfl⟩ := hcs.unique hcs'
    obtain ⟨rest, hrest, hmem⟩ := compileProduct_equates hqs h
    exact (hmem z).mpr (.inl (List.mem_flatMap.mpr ⟨u, hu, mem_apart_comm.mp hz⟩))
  case refine_2 =>
    obtain ⟨cs', _, hcs', h⟩ := gives_bind.mp h
    obtain ⟨rfl, rfl⟩ := hcs.unique hcs'
    obtain ⟨rest, hrest, hmem⟩ := compileInclusion_equates hqs h
    simp only [List.mem_flatMap] at hmem
    exact ⟨rest, hrest, hmem, fun u hu => apart_subset_iff hmem fun z hz => .inl ⟨u, hu, hz⟩⟩
  case refine_3 =>
    obtain ⟨cs', _, hcs', h⟩ := gives_bind.mp h
    obtain ⟨rfl, rfl⟩ := hcs.unique hcs'
    obtain ⟨hv, hw⟩ := List.forall_mem_append.mp htables
    obtain ⟨rest, hrest, hmem⟩ := compileAggregation_equates hqs hv hw h
    exact ⟨rest, hrest, hmem, apart_subset_iff hmem fun z hz => .inl hz⟩

namespace Pairs

open Term Copies

def totals (n : Nat) : Term :=
  .app n .aggregation [income 1, both] (some (.app (n + 1) .functionalType [pairs 8, amount] none))

def totalsByTotals : Term :=
  .app 24 .aggregation [totals 20, totals 22] (some (.app 25 .functionalType [amount, amount] none))

example : apply 20 .aggregation [income 1, both] = .ok (totals 20) := rfl

example : apply 24 .aggregation [totals 20, totals 22] = .ok totalsByTotals := rfl

-- Both totals are read from a table of their own, with two columns for the pairs.
def areTables : List Compiled → Bool
  | [.query v, .query w] =>
    v.joins.isEmpty && w.joins.isEmpty &&
      (v.domain ++ w.domain).all (fun i => i.table.toOption != some "") &&
        apart (v.domain.take 1) (w.domain.take 1) == [s(("tmp0", "col0"), ("tmp1", "col0"))] &&
          apart (v.domain.drop 1) (w.domain.drop 1) == [s(("tmp0", "col1"), ("tmp1", "col1"))]
  | _ => false

def isQuery : Compiled → Bool
  | .query _ => true
  | _        => false

def compiledTotals : SessionM (List Compiled) := do
  let cs ← compileTerm.compileAll { designs := [] } [totals 20, totals 22]
  cs.mapM (freezeGrouped {})

theorem totals_not_equated : ∃ v w q s',
    Arguments { designs := [] } [totals 20, totals 22] {} [v, w] ∧
    (compileTerm { designs := [] } totalsByTotals).Gives {} (.query q) s' ∧
      apart v.domain w.domain =
        [s(("tmp0", "col0"), ("tmp1", "col0")), s(("tmp0", "col1"), ("tmp1", "col1"))] ∧
          ¬apart v.domain w.domain ⊆ equated q.joins := by
  obtain ⟨cs, s₁, hcs, htables⟩ :=
    exists_gives_of_any (x := compiledTotals) (s := {}) (P := areTables) (by decide +kernel)
  obtain ⟨c, s', hc, hq⟩ :=
    exists_gives_of_any (x := compileTerm { designs := [] } totalsByTotals) (s := {}) (P := isQuery)
      (by decide +kernel)
  unfold areTables at htables
  split at htables
  case h_2 => cases htables
  case h_1 v w =>
    cases c <;> cases hq
    case query.refl q =>
      simp only [Bool.and_eq_true, List.isEmpty_iff, List.all_eq_true, bne_iff_ne, beq_iff_eq,
        and_assoc] at htables
      obtain ⟨hv, hw, htable, hfirst, hsecond⟩ := htables
      obtain ⟨cs', s₀, hcs', hcs⟩ := gives_bind.mp hcs
      have hargs : Arguments { designs := [] } [totals 20, totals 22] {} [v, w] :=
        ⟨cs', s₀, s₁, hcs', hcs⟩
      obtain ⟨_, _, h⟩ := whole_domains_equated_iff { designs := [] } 24
        (some (.app 25 .functionalType [amount, amount] none)) [totals 20, totals 22] {} s' v w q []
        hargs
      obtain ⟨rest, hrest, _, hiff⟩ := h hc fun i hi he =>
        htable i hi (by simp [he, Except.toOption])
      obtain rfl : rest = [] := by simpa [hv, hw] using hrest
      refine ⟨v, w, q, s', hargs, hc, by rw [apart_take_drop, hfirst, hsecond]; rfl, ?_⟩
      rw [hiff, hfirst, hsecond]
      decide

end Pairs

end Sql
end Inquiry
