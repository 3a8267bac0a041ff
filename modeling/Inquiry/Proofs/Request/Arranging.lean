import Mathlib
import Inquiry.Proofs.Explanation.Exact
import Inquiry.Proofs.Request.Postfixes
import Inquiry.Proofs.Session.Paths
import Inquiry.Proofs.Term.Storage

/-!
How the conditions of a selection are arranged. Of two conditions on one edge the greater right side
is kept. A path of several edges is composed anew for every condition, so that one that prints alike
is there but not found, and the condition is refused.
-/

namespace Inquiry

open List Sequence

namespace Request

open Term Session SessionM Explanation

section Pairs

variable {t u old : Term} {x : Term × Term} {xs ys : List (Term × Term)} {args : List Term}

theorem flat_append : flat (xs ++ ys) = flat xs ++ flat ys :=
  flatMap_append

theorem flat_cons : flat (x :: xs) = x.1 :: x.2 :: flat xs :=
  rfl

theorem flat_length (xs : List (Term × Term)) : (flat xs).length = 2 * xs.length := by
  induction xs
  case nil          => rfl
  case cons x xs ih => simp [flat_cons, ih, mul_add]

theorem flat_getElem? (xs : List (Term × Term)) (i : Nat) :
    (flat xs)[2 * i]? = xs[i]?.map Prod.fst ∧ (flat xs)[2 * i + 1]? = xs[i]?.map Prod.snd := by
  induction xs generalizing i
  case nil => simp [flat]
  case cons x xs ih =>
    cases i
    case zero   => simp [flat_cons]
    case succ i => simpa [flat_cons, mul_add] using ih i

theorem insertPair_eq (t u : Term) (xs : List (Term × Term)) :
    insertPair t u (flat xs) = flat (Path.insertSorted (·.1.printed) (t, u) xs) := by
  induction xs
  case nil => rfl
  case cons x xs ih =>
    rw [flat_cons, insertPair, Path.insertSorted]
    split
    case isTrue  => rw [ih, flat_cons]
    case isFalse => rfl

theorem erase_append {ts : List Term} (h : ∀ z ∈ args, (z == t) = false) :
    (args ++ t :: ts).erase t = args ++ ts := by
  have hn : ∀ z ∈ args, ¬(z == t) = true := fun z hz => by simp [h z hz]
  rw [erase_eq_eraseP', eraseP_append_right _ hn, eraseP_cons, beq_self, cond_true]

theorem addCondition_new (h : ∀ z ∈ args, z.printed ≠ t.printed) :
    addCondition args t u = .ok (insertPair t u args) := by
  have hp : printsAmong t args = false := by
    simpa [printsAmong] using h
  rw [addCondition, hp]
  rfl

-- What prints alike is there, but it is another object.
theorem addCondition_lost (h : ∃ z ∈ args, z.printed = t.printed)
    (hn : ∀ z ∈ args, (z == t) = false) : addCondition args t u = .error .badValue := by
  have hp : printsAmong t args = true := by
    simpa [printsAmong] using h
  rw [addCondition, if_pos hp, findIdx?_eq_none_iff.mpr hn]

-- The condition on the same object is found; the greater one of the two right sides is kept.
theorem addCondition_found (ht : ∀ z ∈ flat xs, (z == t) = false)
    (ho : ∀ z ∈ flat xs, (z == old) = false) :
    addCondition (flat (xs ++ (t, old) :: ys)) t u =
      .ok (if u.printed > old.printed then insertPair t u (flat (xs ++ ys))
        else flat (xs ++ (t, old) :: ys)) := by
  have he : flat (xs ++ (t, old) :: ys) = flat xs ++ t :: old :: flat ys := by
    rw [flat_append, flat_cons]
  have hp : printsAmong t (flat xs ++ t :: old :: flat ys) = true := by
    simp [printsAmong]
  have hi : (flat xs ++ t :: old :: flat ys).findIdx? (· == t) = some (flat xs).length := by
    rw [findIdx?_append, findIdx?_eq_none_iff.mpr ht, findIdx?_cons, beq_self]
    simp
  have hg : get (flat xs ++ t :: old :: flat ys) ((flat xs).length + 1 : Nat) = .ok old :=
    get_natCast (by simp)
  have hr : ((flat xs ++ t :: old :: flat ys).erase t).erase old = flat (xs ++ ys) := by
    rw [erase_append ht, erase_append ho, flat_append]
  rw [he, addCondition, if_pos hp, hi]
  simp only [hg, ok_bind, hr]
  split <;> rfl

end Pairs

-- A path of known kinds from the pivot to where the constant at its place has its value.
structure Restricts (s : Session) (ms : List Meaning) (pivot : Term) (e : Int × Path) (c : Term) :
    Prop where
  edges : ∀ k ∈ e.2, k.isKind ∧ s.known[k.printed]? = some k
  first : ∃ k, e.2.getLast? = some k ∧ k.source = .ok pivot
  ends  : ∃ v w, Term.Leads e.2 pivot v ∧ c.Goes .one w ∧ v.equals w
  const : get ms e.1 = .ok (.term c)

-- The variable that takes all objects of the pivot together is known, or there is an edge for it.
def Recallable (s : Session) (pivot : Term) : Prop :=
  (∃ k, s.known[togetherTitle pivot.printed]? = some k) ∨
    s.graph.edge? (togetherTitle pivot.printed) ≠ none

-- Such a variable. If it need not be made, it is the one that is known.
structure Together (s s₁ : Session) (pivot a : Term) : Prop where
  goes  : a.Goes pivot .one
  title : a.printed = togetherTitle pivot.printed
  known : Recallable s pivot → s₁.known[togetherTitle pivot.printed]? = some a

def valueText (ms : List Meaning) (pivot : Term) (k : Int) : String :=
  match get ms k with
  | .ok m    => Op.composition.enclose [m.asTerm.printed, togetherTitle pivot.printed]
  | .error _ => ""

-- The second condition can be added when the first one is there: if its path prints like one of the
-- sides of the first one, both paths are one and the same edge.
def Clear (ms : List Meaning) (pivot : Term) (e e' : Int × Path) : Prop :=
  e'.2.shown = e.2.shown ∨ e'.2.shown = valueText ms pivot e.1 → ∃ k, e'.2 = [k] ∧ e.2 = [k]

-- The pair is the condition that the path and its constant make.
structure Makes (s s₁ : Session) (ms : List Meaning) (pivot : Term) (e : Int × Path)
    (x : Term × Term) : Prop where
  left  : Applied .composition e.2 x.1
  right : ∃ c a, get ms e.1 = .ok (.term c) ∧ Together s s₁ pivot a ∧
    Applied .composition [c, a] x.2

def condition (ms : List Meaning) (pivot : Term) (args : List Term) (e : Int × Path) :
    SessionM (List Term) := do
  let first ← ofExcept (get e.2 (-1))
  if (← ofExcept first.source) == pivot then
    let const ← ofExcept (get ms e.1)
    let t ← compose e.2
    let u ← compose [const.asTerm, ← together pivot]
    ofExcept (addCondition args t u)
  else return args

section Step

variable {s s₁ s₂ s' : Session} {ms : List Meaning} {pivot a c c' t u : Term} {e e' : Int × Path}
variable {es done : Assoc Int Path} {x : Term × Term} {xs : List (Term × Term)}

theorem selectionOf_eq : selectionOf es ms pivot = es.foldlM (condition ms pivot) [] >>= restrict :=
  rfl

theorem Together.later (h : Together s s₁ pivot a) (hl : s₁.Later s₂) : Together s s₂ pivot a :=
  ⟨h.goes, h.title, fun hr => hl.known _ _ (h.known hr)⟩

theorem Makes.later (h : Makes s s₁ ms pivot e x) (hl : s₁.Later s₂) : Makes s s₂ ms pivot e x := by
  obtain ⟨c, a, hc, ha, hx⟩ := h.right
  exact ⟨h.left, c, a, hc, ha.later hl, hx⟩

theorem Makes.printed_left (h : Makes s s₁ ms pivot e x) (hn : e.2 ≠ []) :
    x.1.printed = e.2.shown :=
  printed_of_applied h.left hn

theorem Makes.printed_right (h : Makes s s₁ ms pivot e x) :
    x.2.printed = valueText ms pivot e.1 := by
  obtain ⟨c, a, hc, ha, hx⟩ := h.right
  rw [printed_of_applied hx (by simp), valueText, hc, ← ha.title]
  rfl

theorem Makes.right_not_kind (h : Makes s s₁ ms pivot e x) : x.2.isKind = false := by
  obtain ⟨c, a, _, _, hx⟩ := h.right
  obtain ⟨_, _, hx⟩ := hx.joins
  rw [hx]
  rfl

theorem Restricts.ne_nil (h : Restricts s ms pivot e c) : e.2 ≠ [] := by
  obtain ⟨_, _, hl, _⟩ := h.ends
  exact hl.ne_nil

theorem together_runs (h : s.Onward s₁) (hp : s.HasObjectType pivot) :
    ∃ a s₂, (together pivot).Gives s₁ a s₂ ∧ s₁.Onward s₂ ∧ Together s s₂ pivot a := by
  have gathers {s₂ : Session} {k : Term} (hs : s₁.Onward s₂)
      (hk : s₂.known[togetherTitle pivot.printed]? = some k) : k.ElementKind pivot .one := by
    obtain ⟨d, hd, hk⟩ := (hs.faithful.consistent.known _ k hk).together _ rfl
    have hp' := hs.later.known _ _ (h.later.known _ _ hp.known)
    exact Option.some.inj (hd.symm.trans hp') ▸ hk
  have hp₁ := hp.later h.later
  have ⟨a, s₂, ha, hr⟩ := together_gives (Onward.kept s₁) h.faithful.onward hp₁
    fun hs hk => (gathers hs hk).goes.ne_nothing
  refine ⟨a, s₂, ha, ?_⟩
  cases hr
  case inl hr =>
    have ht := hr.kept.faithful.together _ _ hr.known
    exact ⟨hr.kept, (gathers hr.kept hr.known).goes, ht, fun _ => hr.known⟩
  case inr hr =>
    obtain ⟨v, s₃, hn, rfl, hae, han⟩ := hr
    have hf := h.faithful.consistent.fits_together hn.noEdge hp₁.known hn.ends
    refine ⟨(Onward.kept s₁).numbered (h.faithful.onward.know hn hf), hae.goes, han, ?_⟩
    rintro (⟨k, hk⟩ | he)
    · exact absurd (h.later.known _ _ hk) (by simp [hn.unknown])
    · exact absurd (h.later.graph ▸ hn.noEdge) he

theorem get_last {p : List α} {k : α} (h : p.getLast? = some k) :
    Sequence.get p (-1) = .ok k := by
  have hn : 1 ≤ p.length := by
    cases p
    case nil  => simp at h
    case cons => simp
  rw [getLast?_eq_getElem?] at h
  simp [Sequence.get, Sequence.at?, Sequence.place?, hn, h]

theorem runIn_bind_of_gives {y : SessionM α} {f : α → SessionM β} {b : α} (h : y.Gives s b s') :
    (y >>= f).runIn s = (f b).runIn s' := by
  rw [runIn_bind, h]

-- The term is a known kind, or has a number from `n` on.
def NewFrom (s : Session) (n : Nat) (t : Term) : Prop :=
  (t.isKind ∧ s.known[t.printed]? = some t) ∨ ∃ m, t.serial? = some m ∧ n ≤ m

-- Both sides of a condition are made first; they are new, unless the path is a single edge.
structure Sides (s : Session) (ms : List Meaning) (pivot : Term) (e : Int × Path)
    (s₁ s₂ : Session) (t u : Term) : Prop where
  makes  : Makes s s₂ ms pivot e (t, u)
  onward : s₁.Onward s₂
  left   : e.2 = [t] ∨ ∃ m, t.serial? = some m ∧ s₁.next ≤ m ∧ m < s₂.next
  right  : ∃ n, u.serial? = some n ∧ s₁.next ≤ n ∧ n < s₂.next
  apart  : (t == u) = false
  typed  : ∃ d d', t.Goes pivot d ∧ u.Goes pivot d' ∧ d.equals d'

theorem not_beq_symm (h : (t == u) = false) : (u == t) = false := by
  rw [← Bool.not_eq_true] at h ⊢
  exact mt beq_symm h

theorem condition_runs (h : s.Onward s₁) (hp : s.HasObjectType pivot)
    (hf : Restricts s ms pivot e c) : ∃ t u s₂, Sides s ms pivot e s₁ s₂ t u ∧
      ∀ args, (condition ms pivot args e).runIn s₁ = (addCondition args t u, s₂) := by
  have ⟨v, w, hl, hc, he⟩ := hf.ends
  have ⟨k, hlast, hsource⟩ := hf.first
  have ⟨t, s₂, ht, htg⟩ := compose_leads hl s₁
  have ⟨hta, hts⟩ := compose_gives hf.ne_nil ht
  have h₂ : s₁.Onward s₂ := by
    obtain ⟨_, rfl⟩ | ⟨_, rfl⟩ := hts
    · exact h.faithful.onward
    · exact onward_numbered s₁ s₁ h.faithful.onward
  have ⟨a, s₃, ha, h₃, hat⟩ := together_runs (h.trans h₂) hp
  have hlv : Term.Leads [c, a] pivot w := .cons hc (.single hat.goes) Term.typeKind_one.isType.whole
  have ⟨u, s₄, hu, hug⟩ := compose_leads hlv s₃
  have ⟨hua, hus⟩ := compose_gives (by simp) hu
  obtain ⟨hun, rfl⟩ : u.serial? = some s₃.next ∧ s₄ = s₃.numbered := by simpa using hus
  have h₄ : s₃.Onward s₃.numbered := onward_numbered s₃ s₃ h₃.faithful.onward
  have hlt := numbered_next s₃
  have hn₂ := h₂.next
  have hn₃ := h₃.next
  have hleft : e.2 = [t] ∨ ∃ m, t.serial? = some m ∧ s₁.next ≤ m ∧ m < s₂.next := by
    obtain ⟨hp, _⟩ | ⟨htn, rfl⟩ := hts
    · exact .inl hp
    · exact .inr ⟨s₁.next, htn, le_rfl, numbered_next s₁⟩
  have hmakes : Makes s s₃.numbered ms pivot e (t, u) :=
    ⟨hta, c, a, hf.const, hat.later h₄.later, hua⟩
  refine ⟨t, u, s₃.numbered, ⟨hmakes, h₂.trans (h₃.trans h₄), ?_, ⟨s₃.next, hun, by omega, hlt⟩, ?_,
    v, w, htg, hug, he⟩, fun args => ?_⟩
  · refine hleft.imp_right ?_
    rintro ⟨m, hm, hle, hlt'⟩
    exact ⟨m, hm, hle, by omega⟩
  · have hn := h.next
    obtain hp | ⟨m, hm, _, hlt'⟩ := hleft
    · have hk := h.later.known _ _ (hf.edges t (by simp [hp])).right
      have ⟨m, hlt', hm⟩ := h.faithful.serial _ t hk
      exact not_beq_of_serial hm hun (by omega)
    · exact not_beq_of_serial hm hun (by omega)
  · have hfirst : (ofExcept (get e.2 (-1)) : SessionM Term).Gives s₁ k s₁ :=
      gives_ofExcept.mpr ⟨get_last hlast, rfl⟩
    have hsource : (ofExcept k.source : SessionM Term).Gives s₁ pivot s₁ :=
      gives_ofExcept.mpr ⟨hsource, rfl⟩
    have hconst : (ofExcept (get ms e.1) : SessionM Meaning).Gives s₁ (.term c) s₁ :=
      gives_ofExcept.mpr ⟨hf.const, rfl⟩
    rw [condition, runIn_bind_of_gives hfirst, runIn_bind_of_gives hsource, beq_self, if_pos rfl,
      runIn_bind_of_gives hconst, runIn_bind_of_gives ht, runIn_bind_of_gives ha]
    rw [Meaning.asTerm, runIn_bind_of_gives hu]
    cases addCondition args t u <;> rfl

-- The conditions that some of the paths have made, each one on another text, in the order of these.
-- No argument stands there twice.
structure Arranged (s : Session) (ms : List Meaning) (pivot : Term) (done : Assoc Int Path)
    (s₁ : Session) (xs : List (Term × Term)) : Prop where
  onward : s.Onward s₁
  made   : ∀ x ∈ xs, ∃ e ∈ done, Makes s s₁ ms pivot e x
  typed  : ∀ x ∈ xs, ∃ d d', x.1.Goes pivot d ∧ x.2.Goes pivot d' ∧ d.equals d'
  fresh  : ∀ z ∈ flat xs, MadeSince s s₁ done z
  apart  : (flat xs).Pairwise fun z z' => (z == z') = false
  sorted : xs.Pairwise fun x y => y.1.printed < x.1.printed

namespace Arranged

variable {z : Term} {ys : List (Term × Term)}

theorem sublist (h : Arranged s ms pivot done s₁ xs) (hs : ys.Sublist xs) :
    Arranged s ms pivot done s₁ ys where
  onward := h.onward
  made x hx  := h.made x (hs.subset hx)
  typed x hx := h.typed x (hs.subset hx)
  fresh z hz := h.fresh z ((hs.flatMap _).subset hz)
  apart  := h.apart.sublist (hs.flatMap _)
  sorted := h.sorted.sublist hs

theorem later (h : Arranged s ms pivot done s₁ xs) (ho : s₁.Onward s₂) (e : Int × Path) :
    Arranged s ms pivot (done ++ [e]) s₂ xs where
  onward := h.onward.trans ho
  made x hx := by
    obtain ⟨e', he', hm⟩ := h.made x hx
    exact ⟨e', by simp [he'], hm.later ho.later⟩
  typed  := h.typed
  fresh z hz := by
    refine (h.fresh z hz).imp ?_ ?_
    · rintro ⟨n, hz, hle, hlt⟩
      exact ⟨n, hz, hle, hlt.trans_le ho.next⟩
    · rintro ⟨e', he', hz⟩
      exact ⟨e', by simp [he'], hz⟩
  apart  := h.apart
  sorted := h.sorted

variable (hs : s.Faithful) (hes : ∀ e ∈ done, ∃ c, Restricts s ms pivot e c)
include hs hes

theorem not_beq_of_next (h : Arranged s ms pivot done s₁ xs) (hz : z ∈ flat xs)
    (ht : ∃ m, t.serial? = some m ∧ s₁.next ≤ m) : (z == t) = false := by
  have hnext := h.onward.next
  have ⟨m, hm, hle⟩ := ht
  obtain ⟨n, hn, _, hlt⟩ | ⟨e, he, hze⟩ := h.fresh z hz
  · exact not_beq_of_serial hn hm (by omega)
  · have ⟨c, hc⟩ := hes e he
    have ⟨n, hlt, hn⟩ := hs.serial _ z (hc.edges z (by simp [hze])).right
    exact not_beq_of_serial hn hm (by omega)

theorem not_beq (h : Arranged s ms pivot done s₁ xs) (hz : z ∈ flat xs)
    (ht : NewFrom s s₁.next t) (hne : z ≠ t) : (z == t) = false := by
  obtain hk | ht := ht
  case inr => exact h.not_beq_of_next hs hes hz ht
  obtain ⟨n, hn, hle, _⟩ | ⟨e, he, hze⟩ := h.fresh z hz
  · have ⟨m, hlt, hm⟩ := hs.serial _ t hk.right
    exact not_beq_of_serial hn hm (by omega)
  · have ⟨c, hc⟩ := hes e he
    have hzk := hc.edges z (by simp [hze])
    rw [← Bool.not_eq_true]
    exact fun he => hne (hs.eq_of_beq ⟨_, hzk.right⟩ ⟨_, hk.right⟩ he)

omit hs in
theorem ne_right (h : Arranged s ms pivot done s₁ xs) (hx : x ∈ xs) (ht : NewFrom s s₁.next t) :
    x.2 ≠ t := by
  rintro rfl
  have ⟨e, _, hm⟩ := h.made x hx
  have hk := hm.right_not_kind
  obtain ⟨ht, _⟩ | ⟨m, hm, hle⟩ := ht
  · simp [hk] at ht
  · obtain ⟨n, hn, _, hlt⟩ | ⟨e, he, hxe⟩ := h.fresh x.2 (mem_flat.mpr ⟨x, hx, .inr rfl⟩)
    · obtain rfl := Option.some.inj (hn.symm.trans hm)
      omega
    · have ⟨c, hc⟩ := hes e he
      simp [(hc.edges x.2 (by simp [hxe])).left] at hk

omit hs hes in
theorem apply_inclusion (h : Arranged s ms pivot done s₁ xs) (hn : xs ≠ []) (n : Nat) :
    ∃ t, apply n .inclusion (flat xs) = .ok t := by
  have goes : ∀ z ∈ flat xs, ∃ d, z.Goes pivot d := by
    intro z hz
    obtain ⟨x, hx, hzx⟩ := mem_flat.mp hz
    obtain ⟨d, d', hd, hd', _⟩ := h.typed x hx
    exact hzx.elim (fun he => ⟨d, he ▸ hd⟩) fun he => ⟨d', he ▸ hd'⟩
  have hid : Identified (flat xs) := by
    have : Std.Symm fun z z' : Term => (z == z') = false := ⟨fun _ _ => not_beq_symm⟩
    intro z hz z' hz' he
    by_contra hne
    simp [h.apart.forall hz hz' hne] at he
  have hfit : PairsFit (fun _ => True) (flat xs) := by
    have hlen := length_pos_iff.mpr hn
    refine ⟨by simp [flat_length], by simp only [flat_length]; omega, fun z hz z' hz' => ?_, ?_⟩
    · obtain ⟨d, hd⟩ := goes z hz
      obtain ⟨d', hd'⟩ := goes z' hz'
      exact ⟨pivot, pivot, hd.dom, hd'.dom, hd.source.whole⟩
    · intro i z z' _ hz hz'
      rw [(flat_getElem? xs i).left] at hz
      rw [(flat_getElem? xs i).right] at hz'
      obtain ⟨x, hx, rfl⟩ := Option.map_eq_some_iff.mp hz
      obtain rfl : x.2 = z' := by simpa [hx] using hz'
      obtain ⟨d, d', hd, hd', he⟩ := h.typed x (mem_of_getElem? hx)
      exact ⟨d, d', hd.cod, hd'.cod, he⟩
  have hgoes : ∀ z ∈ flat xs, ∃ d c, z.Goes d c := fun z hz => ⟨pivot, goes z hz⟩
  exact (accepts_iff_new_pairs_fit n (.inl rfl) hgoes hid).right.right.left hfit

end Arranged

theorem Sides.new_left (h : Sides s ms pivot e s₁ s₂ t u) (hf : Restricts s ms pivot e c) :
    NewFrom s s₁.next t := by
  refine h.left.imp (fun ht => hf.edges t (by simp [ht])) ?_
  rintro ⟨m, hm, hle, _⟩
  exact ⟨m, hm, hle⟩

theorem Arranged.insert (hs : s.Faithful) (hes : ∀ e ∈ done, ∃ c, Restricts s ms pivot e c)
    (h : Arranged s ms pivot done s₁ xs) (hf : Restricts s ms pivot e c)
    (hx : Sides s ms pivot e s₁ s₂ t u) (hn : ∀ x ∈ xs, x.1.printed ≠ t.printed) :
    Arranged s ms pivot (done ++ [e]) s₂ (Path.insertSorted (·.1.printed) (t, u) xs) := by
  have hl := h.later hx.onward e
  have hperm := Path.insertSorted_perm (·.1.printed) (t, u) xs
  have hflat : (flat (Path.insertSorted (·.1.printed) (t, u) xs)).Perm (t :: u :: flat xs) :=
    hperm.flatMap_right _
  refine ⟨hl.onward, fun x hm => ?_, fun x hm => ?_, fun z hz => ?_, ?_, ?_⟩
  · obtain rfl | hm := mem_cons.mp (hperm.mem_iff.mp hm)
    · exact ⟨e, by simp, hx.makes⟩
    · exact hl.made x hm
  · obtain rfl | hm := mem_cons.mp (hperm.mem_iff.mp hm)
    · exact hx.typed
    · exact hl.typed x hm
  · rw [hflat.mem_iff, mem_cons, mem_cons] at hz
    obtain rfl | rfl | hz := hz
    · refine hx.left.symm.imp ?_ fun ht => ⟨e, by simp, ht⟩
      rintro ⟨m, hm, hle, hlt⟩
      exact ⟨m, hm, h.onward.next.trans hle, hlt⟩
    · have ⟨n, hn, hle, hlt⟩ := hx.right
      exact .inl ⟨n, hn, h.onward.next.trans hle, hlt⟩
    · exact hl.fresh z hz
  · rw [hflat.pairwise_iff not_beq_symm, pairwise_cons, forall_mem_cons]
    have ⟨n, hun, hle, _⟩ := hx.right
    refine ⟨⟨hx.apart, fun z hz => not_beq_symm (h.not_beq hs hes hz (hx.new_left hf) ?_)⟩,
      .cons (fun z hz => not_beq_symm (h.not_beq_of_next hs hes hz ⟨n, hun, hle⟩)) h.apart⟩
    obtain ⟨x, hm, rfl | rfl⟩ := mem_flat.mp hz
    · exact fun he => hn x hm (congrArg _ he)
    · exact h.ne_right hes hm (hx.new_left hf)
  · have hle : xs.Pairwise fun x y => y.1.printed ≤ x.1.printed := h.sorted.imp le_of_lt
    have hne : (Path.insertSorted (·.1.printed) (t, u) xs).Pairwise
        fun x y => y.1.printed ≠ x.1.printed := by
      rw [hperm.pairwise_iff fun h => h.symm]
      exact .cons (fun x hm => hn x hm) (h.sorted.imp ne_of_lt)
    exact ((Path.insertSorted_sorted hle).and hne).imp fun h => lt_of_le_of_ne h.left h.right

-- There is a condition for the path of each of the places, with a right side that is not less than
-- that of the place.
structure Collected (s : Session) (ms : List Meaning) (pivot : Term) (done : Assoc Int Path)
    (s₁ : Session) (xs : List (Term × Term)) : Prop extends Arranged s ms pivot done s₁ xs where
  greatest : ∀ e ∈ done, ∃ x ∈ xs, Applied .composition e.2 x.1 ∧
    valueText ms pivot e.1 ≤ x.2.printed

section Add

variable {ys : List (Term × Term)}

-- What is there afterwards need only be as great as what was there before.
theorem Collected.extend (h : Collected s ms pivot done s₁ xs) (hx : Sides s ms pivot e s₁ s₂ t u)
    (ha : Arranged s ms pivot (done ++ [e]) s₂ ys)
    (hy : ∀ x ∈ (t, u) :: xs, ∃ y ∈ ys, y.1 = x.1 ∧ x.2.printed ≤ y.2.printed) :
    Collected s ms pivot (done ++ [e]) s₂ ys where
  toArranged := ha
  greatest e' he' := by
    have ⟨x, hm, hl, hg⟩ : ∃ x ∈ (t, u) :: xs, Applied .composition e'.2 x.1 ∧
        valueText ms pivot e'.1 ≤ x.2.printed := by
      obtain he' | he' := mem_append.mp he'
      · have ⟨x, hm, hg⟩ := h.greatest e' he'
        exact ⟨x, mem_cons_of_mem _ hm, hg⟩
      · obtain rfl := mem_singleton.mp he'
        exact ⟨(t, u), by simp, hx.makes.left, hx.makes.printed_right.ge⟩
    have ⟨y, hm', hl', hg'⟩ := hy x hm
    exact ⟨y, hm', hl' ▸ hl, hg.trans hg'⟩

variable (hs : s.Faithful) (hes : ∀ e ∈ done, ∃ c, Restricts s ms pivot e c)
  (h : Collected s ms pivot done s₁ xs) (hf : Restricts s ms pivot e c)
  (hx : Sides s ms pivot e s₁ s₂ t u)
include hs hes h hf hx

theorem Collected.add_new (hn : ∀ z ∈ flat xs, z.printed ≠ t.printed) :
    ∃ ys, addCondition (flat xs) t u = .ok (flat ys) ∧
      Collected s ms pivot (done ++ [e]) s₂ ys := by
  have hperm := Path.insertSorted_perm (·.1.printed) (t, u) xs
  have hl : ∀ x ∈ xs, x.1.printed ≠ t.printed := fun x hm => hn x.1 (mem_flat.mpr ⟨x, hm, .inl rfl⟩)
  exact ⟨_, by rw [addCondition_new hn, insertPair_eq], h.extend hx (h.insert hs hes hf hx hl)
    fun x hm => ⟨x, hperm.mem_iff.mpr hm, rfl, le_rfl⟩⟩

-- The edge is there already. The one that is there is kept, or it makes way for the new one.
theorem Collected.add_again (ht : t ∈ flat xs) :
    ∃ ys, addCondition (flat xs) t u = .ok (flat ys) ∧
      Collected s ms pivot (done ++ [e]) s₂ ys := by
  obtain ⟨⟨t', old⟩, hm, rfl | hr⟩ := mem_flat.mp ht
  case inr => exact absurd hr.symm (h.ne_right hes hm (hx.new_left hf))
  obtain ⟨as, bs, rfl⟩ := append_of_mem hm
  have hsplit : flat (as ++ (t, old) :: bs) = flat as ++ flat ((t, old) :: bs) := flat_append
  have ⟨_, _, ha⟩ := pairwise_append.mp (hsplit ▸ h.apart)
  have hfirst : ∀ z ∈ flat as, (z == t) = false := fun z hz => ha z hz t (by simp [flat_cons])
  have hold : ∀ z ∈ flat as, (z == old) = false := fun z hz => ha z hz old (by simp [flat_cons])
  rw [addCondition_found hfirst hold]
  split
  case isFalse hle =>
    refine ⟨_, rfl, h.extend hx (h.later hx.onward e) ?_⟩
    rw [forall_mem_cons]
    exact ⟨⟨(t, old), hm, rfl, not_lt.mp hle⟩, fun x hm => ⟨x, hm, rfl, le_rfl⟩⟩
  case isTrue hlt =>
    have ⟨_, hb, hab⟩ := pairwise_append.mp h.sorted
    have hn : ∀ x ∈ as ++ bs, x.1.printed ≠ t.printed := by
      intro x hx
      obtain hx | hx := mem_append.mp hx
      · exact (hab x hx (t, old) (by simp)).ne'
      · exact ((pairwise_cons.mp hb).left x hx).ne
    have hsub : (as ++ bs).Sublist (as ++ (t, old) :: bs) :=
      (List.Sublist.refl as).append (sublist_cons_self _ bs)
    have hperm := Path.insertSorted_perm (·.1.printed) (t, u) (as ++ bs)
    refine ⟨_, by rw [insertPair_eq], h.extend hx ((h.sublist hsub).insert hs hes hf hx hn) ?_⟩
    intro x hm
    by_cases ho : x = (t, old)
    case pos => exact ⟨(t, u), hperm.mem_iff.mpr (by simp), by rw [ho], by rw [ho]; exact hlt.le⟩
    case neg => exact ⟨x, hperm.mem_iff.mpr (by simpa [ho] using hm), rfl, le_rfl⟩

theorem Collected.refused (hp : ∃ z ∈ flat xs, z.printed = t.printed) (ht : t ∉ flat xs) :
    addCondition (flat xs) t u = .error .badValue := by
  apply addCondition_lost hp
  intro z hz
  exact h.not_beq hs hes hz (hx.new_left hf) fun he => ht (he ▸ hz)

theorem Collected.single_of_mem (ht : t ∈ flat xs) : e.2 = [t] ∧ ∃ e' ∈ done, e'.2 = [t] := by
  have he : e.2 = [t] := by
    refine hx.left.resolve_right ?_
    rintro ⟨m, hm, hle, _⟩
    simpa using h.not_beq_of_next hs hes ht ⟨m, hm, hle⟩
  refine ⟨he, (h.fresh t ht).resolve_left ?_⟩
  rintro ⟨n, hn, hle, _⟩
  have ⟨m, hlt, hm⟩ := hs.serial _ t (hf.edges t (by simp [he])).right
  obtain rfl := Option.some.inj (hn.symm.trans hm)
  omega

theorem Collected.add_or_refused : (∃ ys, addCondition (flat xs) t u = .ok (flat ys) ∧
    Collected s ms pivot (done ++ [e]) s₂ ys) ∨ addCondition (flat xs) t u = .error .badValue := by
  by_cases ht : t ∈ flat xs
  case pos => exact .inl (h.add_again hs hes hf hx ht)
  case neg =>
    by_cases hp : ∃ z ∈ flat xs, z.printed = t.printed
    case pos => exact .inr (h.refused hs hes hf hx hp ht)
    case neg => exact .inl (h.add_new hs hes hf hx fun z hz he => hp ⟨z, hz, he⟩)

theorem Collected.add_of_clear (hc : ∀ e' ∈ done, Clear ms pivot e' e) :
    ∃ ys, addCondition (flat xs) t u = .ok (flat ys) ∧
      Collected s ms pivot (done ++ [e]) s₂ ys := by
  by_cases hp : ∃ z ∈ flat xs, z.printed = t.printed
  case neg => exact h.add_new hs hes hf hx fun z hz he => hp ⟨z, hz, he⟩
  case pos =>
    obtain ⟨z, hz, hp⟩ := hp
    obtain ⟨x, hm, hzx⟩ := mem_flat.mp hz
    obtain ⟨e', he', hmk⟩ := h.made x hm
    obtain ⟨c', hf'⟩ := hes e' he'
    have ht : t.printed = e.2.shown := hx.makes.printed_left hf.ne_nil
    have hshown : e.2.shown = e'.2.shown ∨ e.2.shown = valueText ms pivot e'.1 := by
      rw [← ht, ← hp]
      obtain rfl | rfl := hzx
      · exact .inl (hmk.printed_left hf'.ne_nil)
      · exact .inr hmk.printed_right
    obtain ⟨k, hk, hk'⟩ := hc e' he' hshown
    -- The first condition may have been left out for another one on the same edge.
    obtain ⟨y, hy, hl, _⟩ := h.greatest e' he'
    have hyk : Applied .composition [k] y.1 := hk' ▸ hl
    have htk : Applied .composition [k] t := hk ▸ hx.makes.left
    exact h.add_again hs hes hf hx (mem_flat.mpr ⟨y, hy, .inl (Eq.trans htk hyk.symm)⟩)

end Add

theorem Collected.refused_of_not_clear (hs : s.Faithful) (hf' : Restricts s ms pivot e' c')
    (h : Collected s ms pivot [e'] s₁ xs) (hf : Restricts s ms pivot e c)
    (hx : Sides s ms pivot e s₁ s₂ t u) (hc : ¬Clear ms pivot e' e) :
    addCondition (flat xs) t u = .error .badValue := by
  have hes : ∀ e ∈ [e'], ∃ c, Restricts s ms pivot e c := by simpa using ⟨c', hf'⟩
  obtain ⟨hp, hk⟩ := Classical.not_imp.mp hc
  obtain ⟨y, hy, _⟩ := h.greatest e' (by simp)
  have hmk : Makes s s₁ ms pivot e' y := by simpa using h.made y hy
  have ht : t.printed = e.2.shown := hx.makes.printed_left hf.ne_nil
  refine h.refused hs hes hf hx ?_ fun ht => hk ?_
  · rw [ht]
    obtain hp | hp := hp
    · exact ⟨y.1, mem_flat.mpr ⟨y, hy, .inl rfl⟩, (hmk.printed_left hf'.ne_nil).trans hp.symm⟩
    · exact ⟨y.2, mem_flat.mpr ⟨y, hy, .inr rfl⟩, hmk.printed_right.trans hp.symm⟩
  · obtain ⟨he, _, he', ht'⟩ := h.single_of_mem hs hes hf hx ht
    exact ⟨t, he, mem_singleton.mp he' ▸ ht'⟩

end Step

end Request
end Inquiry
