import Mathlib
import Inquiry.Proofs.Request.Around
import Inquiry.Proofs.Request.Clashes
import Inquiry.Proofs.Request.Dimensions

/-!
The constants that have a clue. After the clashes every clue is that of exactly one constant, unless
each one that had it gave it up. Then it goes to every constant whose values it gives or leads to.
-/

namespace Inquiry

open List

namespace Request

open Keyword SessionM

variable {k c : Int}

section Share

variable {r : Request} {g : Graph} {s : Session} {cs : Clues}

-- The relation or variable at place `c` gives values of the set of the constant at place `k`, or
-- leads to that set.
def Concerns (r : Request) (g : Graph) (c k : Int) : Prop :=
  ∃ m m' t t', r.meaning c = .ok m ∧ r.meaning k = .ok m' ∧ m.goal = .ok t ∧ m'.goal = .ok t' ∧
    (t == t' ∨ g.LeadsTo t t')

-- What has been added to the clues: those of `ps` that no constant had.
structure Grown (r : Request) (g : Graph) (ps : List Nat) (cs cs' : Clues) : Prop where
  keys : cs'.map Prod.fst = cs.map Prod.fst
  has  : ∀ k c, Has cs' k c ↔ Has cs k c ∨
    ((∃ p ∈ ps, (p : Int) = c) ∧ (∀ j, ¬Has cs j c) ∧ k ∈ cs.map Prod.fst ∧ r.Concerns g c k)

-- The place `p` is added to the clues of one constant, if it concerns that constant.
def AddsClue (r : Request) (g : Graph) (p : Int) (e e' : Int × List Int) : Prop :=
  e'.1 = e.1 ∧ ∀ c, c ∈ e'.2 ↔ c ∈ e.2 ∨ (c = p ∧ r.Concerns g p e.1)

theorem any_contains_iff {c : Int} :
    (cs.any fun (_, places) => places.contains c) = true ↔ ∃ j, Has cs j c := by
  simp [Has, any_eq_true]

theorem exists_added (hg : g.Legible) (hs : s.Legible g) {p : Nat} {m : Meaning} {t : Term}
    (hp : r.meaning p = .ok m) (hgoal : m.goal = .ok t) (ht : t.IsType) {e : Int × List Int}
    (hk : ∃ m t, r.meaning e.1 = .ok m ∧ m.goal = .ok t) :
    ∃ e' s', Gives (do
        let g ← ofExcept do (← r.meaning p).goal
        let h ← ofExcept do (← r.meaning e.1).goal
        if g == h then return (e.1, e.2 ++ [(p : Int)])
        if ← reaches g h then return (e.1, e.2 ++ [(p : Int)])
        return (e.1, e.2)) s e' s' ∧ s'.Legible g ∧ r.AddsClue g p e e' := by
  obtain ⟨m', t', hm', ht'⟩ := hk
  have hcon : r.Concerns g p e.1 ↔ t == t' ∨ g.LeadsTo t t' := by
    constructor
    · rintro ⟨n, n', u, u', hn, hn', hu, hu', hc⟩
      obtain rfl := Except.ok.inj (hp.symm.trans hn)
      obtain rfl := Except.ok.inj (hm'.symm.trans hn')
      obtain rfl := Except.ok.inj (hgoal.symm.trans hu)
      obtain rfl := Except.ok.inj (ht'.symm.trans hu')
      exact hc
    · exact fun hc => ⟨m, m', t, t', hp, hm', hgoal, ht', hc⟩
  simp only [hp, hm', ok_bind, hgoal, ht', AddsClue, hcon]
  cases he : t == t'
  case true =>
    refine ⟨(e.1, e.2 ++ [(p : Int)]), s, ?_, hs, rfl, by simp⟩
    exact Gives.ofExcept_bind rfl <| Gives.ofExcept_bind rfl <| by
      simp [he]
  case false =>
    obtain ⟨b, s', hb, hs', hlead⟩ := exists_reaches hg hs ht t'
    refine ⟨(e.1, if b then e.2 ++ [(p : Int)] else e.2), s', ?_, hs', rfl, ?_⟩
    · refine Gives.ofExcept_bind rfl <|
        Gives.ofExcept_bind rfl ?_
      simp only [he, Bool.false_eq_true, if_false]
      exact hb.bind (by cases b <;> simp)
    · simp only [← hlead]
      cases b <;> simp

theorem exists_share (hg : g.Legible) (hs : s.Legible g) {p : Nat} {m : Meaning} {t : Term}
    (hp : r.meaning p = .ok m) (hgoal : m.goal = .ok t) (ht : t.IsType)
    (hk : ∀ k ∈ cs.map Prod.fst, ∃ m t, r.meaning k = .ok m ∧ m.goal = .ok t) :
    ∃ cs' s', (r.share cs p).Gives s cs' s' ∧ s'.Legible g ∧ r.Grown g [p] cs cs' := by
  rw [share]
  split
  case isTrue hc =>
    obtain ⟨j, hj⟩ := any_contains_iff.mp hc
    exact ⟨cs, s, gives_done, hs, rfl, fun k c => by grind⟩
  case isFalse hc =>
    have hnot (j : Int) (hj : Has cs j p) : False := hc (any_contains_iff.mpr ⟨j, hj⟩)
    obtain ⟨cs', s', h, hs', hall⟩ := exists_mapM_forall₂ (R := r.AddsClue g p)
      (fun e he s hs => exists_added hg hs hp hgoal ht (hk e.1 (mem_map_of_mem he))) hs
    refine ⟨cs', s', h, hs', (map_eq_map_of_forall₂ hall fun _ _ h => h.left.symm).symm, fun k c => ?_⟩
    constructor
    · rintro ⟨places, hm, hc⟩
      obtain ⟨e, he, rfl, hadd⟩ := exists_of_mem_right hall hm
      obtain hc | ⟨rfl, hcon⟩ := (hadd c).mp hc
      · exact .inl ⟨e.2, he, hc⟩
      · exact .inr ⟨⟨p, by simp, rfl⟩, hnot, mem_map_of_mem he, hcon⟩
    · rintro (⟨places, he, hc⟩ | ⟨⟨q, hq, rfl⟩, _, hk, hcon⟩)
      · obtain ⟨e', he', rfl, hadd⟩ := exists_of_mem_right hall.flip he
        exact ⟨e'.2, he', (hadd c).mpr (.inl hc)⟩
      · obtain rfl : q = p := by simpa using hq
        obtain ⟨e, he, rfl⟩ := mem_map.mp hk
        obtain ⟨e', he', hek, hadd⟩ := exists_of_mem_right hall.flip he
        exact ⟨e'.2, hek ▸ he', (hadd q).mpr (.inr ⟨rfl, hcon⟩)⟩

theorem exists_shares (hg : g.Legible) (hs : s.Legible g) {ps : List Nat}
    (hp : ∀ p ∈ ps, ∃ m t, r.meaning p = .ok m ∧ m.goal = .ok t ∧ t.IsType)
    (hk : ∀ k ∈ cs.map Prod.fst, ∃ m t, r.meaning k = .ok m ∧ m.goal = .ok t) :
    ∃ cs' s', (ps.foldlM (r.share ·) cs).Gives s cs' s' ∧ s'.Legible g ∧ r.Grown g ps cs cs' := by
  induction ps generalizing s cs
  case nil => exact ⟨cs, s, gives_done, hs, rfl, by simp⟩
  case cons p ps ih =>
    obtain ⟨⟨m, t, hm, ht, hty⟩, hps⟩ := forall_mem_cons.mp hp
    obtain ⟨cs₁, s₁, h₁, hs₁, hg₁⟩ := exists_share hg hs hm ht hty hk
    obtain ⟨cs₂, s₂, h₂, hs₂, hg₂⟩ := ih hs₁ hps (hg₁.keys ▸ hk)
    refine ⟨cs₂, s₂, h₁.bind h₂, hs₂, hg₂.keys.trans hg₁.keys, fun k c => ?_⟩
    -- the first place may come again, but then it has been given to those it concerns
    rw [hg₂.has, hg₁.has, hg₁.keys]
    simp only [hg₁.has, mem_cons]
    grind

end Share

section Table

variable {r : Request} {g : Graph} {s s₀ : Session} {model : Model} {ks : List String}

theorem places_sorted (r : Request) (ks : List String) : (r.places ks).Pairwise (· < ·) := by
  have hn : (Sequence.numbered r.keywords).Pairwise fun a b => a.1 < b.1 := by
    simp [Sequence.numbered, pairwise_iff_getElem]
  exact List.Pairwise.filterMap _ (fun a b hab c hc d hd => by grind) hn

theorem mem_request_places {i : Nat} :
    i ∈ r.places ks ↔ ∃ w ∈ ks, r.keywords[i]? = some w := by
  simp only [Request.places, Sequence.numbered, filterMap_map, mem_filterMap,
    Function.comp_apply, Option.ite_none_right_eq_some, Option.some.injEq, Prod.exists,
    mem_zipIdx_iff_getElem?]
  grind

theorem Neighbour.Near.of_mem {n : Neighbour} (h : n.Near ks) (hc : c ∈ n.places) :
    (∃ w ∈ [relation, category], wordAt ks c = some w) ∧
      (n.before = some c ∧ c < n.key ∧ (∀ j, j < n.key → wordAt ks j = some constant → j < c) ∨
        n.after = some c ∧ n.key < c ∧ ∀ j, n.key < j → wordAt ks j = some constant → c < j) := by
  obtain hc | hc : n.before = some c ∨ n.after = some c := by simpa [Neighbour.places] using hc
  · obtain ⟨hlt, hw, hj⟩ := h.left c hc
    exact ⟨hw, .inl ⟨hc, hlt, hj⟩⟩
  · obtain ⟨hlt, hw, hj⟩ := h.right c hc
    exact ⟨hw, .inr ⟨hc, hlt, hj⟩⟩

theorem inLine_of_near {cs : Clues} (hkeys : (cs.map Prod.fst).Pairwise (· < ·))
    (h : ∀ e ∈ cs, wordAt ks e.1 = some constant ∧
      ∃ n : Neighbour, n.key = e.1 ∧ n.Near ks ∧ e.2 = n.places) : InLine ks.length cs := by
  have hhas (k c : Int) (hc : Has cs k c) : wordAt ks k = some constant ∧
      ∃ n : Neighbour, n.key = k ∧ n.Near ks ∧ c ∈ n.places ∧ ∀ d, Has cs k d → d ∈ n.places := by
    obtain ⟨places, he, hc⟩ := hc
    obtain ⟨hw, n, hk, hn, rfl⟩ := h _ he
    exact ⟨hw, n, hk, hn, hc, fun d => (has_of_mem (hkeys.imp ne_of_lt) he).mp⟩
  refine ⟨hkeys, fun e he => ?_, fun k c hc => ?_, fun k c d hc hd hcd => ?_,
    fun k l c d hkl hc hd => ?_⟩
  · obtain ⟨_, n, _, ⟨hb, ha⟩, hp⟩ := h e he
    rw [hp]
    cases hbb : n.before <;> cases haa : n.after <;> simp [Neighbour.places, hbb, haa]
    exact (hb _ hbb).left.trans (ha _ haa).left
  · obtain ⟨hw, n, rfl, hn, hc, _⟩ := hhas k c hc
    obtain ⟨⟨w, _, hwc⟩, hside⟩ := hn.of_mem hc
    have h₁ := nonneg_of_wordAt hw
    have h₂ := nonneg_of_wordAt hwc
    omega
  · obtain ⟨_, n, rfl, hn, hc, hall⟩ := hhas k c hc
    have h₁ := (hn.of_mem hc).right
    have h₂ := (hn.of_mem (hall d hd)).right
    grind
  · obtain ⟨hwk, m, rfl, hm, hc, _⟩ := hhas k c hc
    obtain ⟨hwl, n, rfl, hn, hd, _⟩ := hhas l d hd
    have h₁ := (hm.of_mem hc).right
    have h₂ := (hn.of_mem hd).right
    grind

def clueTable (r : Request) : SessionM Clues :=
  (r.places [constant]).mapM fun (k : Nat) => do return ((k : Int), ← ofExcept (clues r.keywords k))

def matched (cs : Clues) : Clues :=
  cs.map fun (k, places) => (k, places.filter (· != -1))

theorem map_fst_matched (cs : Clues) : (matched cs).map Prod.fst = cs.map Prod.fst := by
  simp [matched, Function.comp_def]

-- The clues that are found for the constant at place `k` are near it.
def FindsClues (r : Request) (k : Nat) (e : Int × List Int) : Prop :=
  e.1 = k ∧ ∃ n : Neighbour, n.key = k ∧ n.Near r.keywords ∧ e.2.filter (· != -1) = n.places

def cluePlaces (r : Request) (cs : Clues) : SessionM Clues := do
  let cs ← ofExcept (spare (matched cs))
  let cs ← ofExcept (settle r.keywords.length cs)
  (r.places [relation, category]).foldlM (r.share ·) cs

theorem clueMeanings_eq (r : Request) (cs : Clues) : r.clueMeanings cs = r.cluePlaces cs >>=
    (·.mapM fun (k, places) => do return (k, ← ofExcept (places.mapM r.meaning))) := by
  simp only [clueMeanings, cluePlaces, bind_assoc]
  rfl

theorem exists_clueTable (r : Request) (s : Session) : ∃ cs, r.clueTable.Gives s cs s ∧
    cs.map Prod.fst = (r.places [constant]).map Nat.cast ∧
    InLine r.keywords.length (matched cs) ∧
    ∀ k c, Has (matched cs) k c → ∃ i ∈ r.places [relation, category], (i : Int) = c := by
  have hconst (i : Nat) (hi : i ∈ r.places [constant]) : wordAt r.keywords i = some constant := by
    simpa [wordAt_natCast, mem_request_places] using hi
  have hfound : ∃ cs s', r.clueTable.Gives s cs s' ∧ s' = s ∧
      Forall₂ r.FindsClues (r.places [constant]) cs := by
    refine exists_mapM_forall₂ (fun i hi s hs => ?_) rfl
    obtain ⟨n, hk, hn, places, hplaces, hp⟩ := exists_neighbour (hconst i hi)
    exact ⟨((i : Int), places), s,
      Gives.ofExcept_bind hplaces gives_done, hs, rfl, n, hk, hn, hp⟩
  obtain ⟨cs, _, hcs, rfl, hnear⟩ := hfound
  have hkeys : cs.map Prod.fst = (r.places [constant]).map Nat.cast :=
    (map_eq_map_of_forall₂ hnear fun _ _ h => h.left.symm).symm
  have hmatched (e : Int × List Int) (he : e ∈ matched cs) : wordAt r.keywords e.1 = some constant ∧
      ∃ n : Neighbour, n.key = e.1 ∧ n.Near r.keywords ∧ e.2 = n.places := by
    obtain ⟨e, hcs, rfl⟩ := mem_map.mp he
    obtain ⟨i, hi, hk, n, hn⟩ := exists_of_mem_right hnear hcs
    exact ⟨hk ▸ hconst i hi, n, hk ▸ hn⟩
  refine ⟨cs, hcs, hkeys, inLine_of_near ?_ hmatched, ?_⟩
  · rw [map_fst_matched, hkeys, pairwise_map]
    exact (r.places_sorted _).imp fun h => by omega
  · rintro k c ⟨places, he, hc⟩
    obtain ⟨_, n, _, hn, rfl⟩ := hmatched _ he
    obtain ⟨⟨w, hw, hc⟩, _⟩ := hn.of_mem hc
    obtain ⟨i, rfl⟩ := Int.eq_ofNat_of_zero_le (nonneg_of_wordAt hc).left
    exact ⟨i, mem_request_places.mpr ⟨w, hw, wordAt_natCast r.keywords i ▸ hc⟩, rfl⟩

theorem exists_mapM_ok {f : α → Except ε β} {as : List α} (h : ∀ a ∈ as, ∃ b, f a = .ok b) :
    ∃ bs, as.mapM f = .ok bs := by
  induction as
  case nil => exact ⟨[], rfl⟩
  case cons a as ih =>
    obtain ⟨⟨b, hb⟩, has⟩ := forall_mem_cons.mp h
    obtain ⟨bs, hbs⟩ := ih has
    exact ⟨b :: bs, by simp [hb, hbs, ok_bind]⟩

-- The meaning of each constant is a value in a set of values.
def Valued (r : Request) : Prop :=
  ∀ k : Nat, r.keywords[k]? = some constant → ∃ m t, r.meaning k = .ok m ∧ m.goal = .ok t

theorem Fitting.exists_goal (h : r.Fitting) {i : Nat} (hi : i ∈ r.places [relation, category]) :
    ∃ m t, r.meaning i = .ok m ∧ m.goal = .ok t ∧ t.IsType := by
  obtain ⟨w, hw, hi⟩ := mem_request_places.mp hi
  obtain ⟨m, hm, hs⟩ := h.suits hi
  obtain ⟨t, ht, hty⟩ := hs.element hw
  exact ⟨m, t, Sequence.get_natCast hm, ht, hty⟩

-- The clues of a constant, as what stands at their places.
def ReadsAs (r : Request) (e : Int × List Int) (e' : Int × List Meaning) : Prop :=
  e'.1 = e.1 ∧ e.2.mapM r.meaning = .ok e'.2

-- Wherever a session has come to, the clues of all constants are told. Each clue that was found for
-- some constant is that of exactly one in the end, unless each one gave it up and it does not concern
-- exactly one.
theorem clue_owned_once_iff (hm : model.Legible) (h₀ : Session.start model = .ok s₀)
    (h : Reached s₀ s) (hr : r.Fitting) (hv : r.Valued) :
    ∃ cs cs' ms s', r.clueTable.Gives s cs s ∧ (r.cluePlaces cs).Gives s cs' s' ∧
      (r.clueMeanings cs).Gives s ms s' ∧ List.Forall₂ r.ReadsAs cs' ms ∧
      ∀ c, (∃ k, Has (matched cs) k c) → ((∃! k, Has cs' k c) ↔
        (∃ k, Has (matched cs) k c ∧ ¬GivesUp (matched cs) k c) ∨
        ∃! k, k ∈ cs.map Prod.fst ∧ r.Concerns model.graph c k) := by
  obtain ⟨cs, hcs, hkeys, hline, hclue⟩ := r.exists_clueTable s
  obtain ⟨cs₁, cs₂, hspare, hsettle, hkeys', hfrom, hown⟩ := exists_resolved hline
  rw [map_fst_matched] at hkeys'
  have hgoal (k : Int) (hk : k ∈ cs₂.map Prod.fst) : ∃ m t, r.meaning k = .ok m ∧ m.goal = .ok t := by
    rw [hkeys', hkeys] at hk
    obtain ⟨i, hi, rfl⟩ := List.mem_map.mp hk
    exact hv i (by simpa [mem_request_places] using hi)
  obtain ⟨cs', s', hshare, _, hgrown⟩ :=
    exists_shares hm.graph (h.legible hm h₀) (fun p hp => hr.exists_goal hp) hgoal
  have hplaces : (r.cluePlaces cs).Gives s cs' s' :=
    Gives.ofExcept_bind hspare <|
      Gives.ofExcept_bind hsettle hshare
  have hmean (e : Int × List Int) (he : e ∈ cs') : ∃ ms, e.2.mapM r.meaning = .ok ms := by
    refine exists_mapM_ok fun c hc => ?_
    have hi : ∃ i ∈ r.places [relation, category], (i : Int) = c := by
      obtain hc | hc := (hgrown.has e.1 c).mp ⟨e.2, he, hc⟩
      · exact hclue e.1 c (hfrom e.1 c hc).left
      · exact hc.left
    obtain ⟨i, hi, rfl⟩ := hi
    obtain ⟨m, _, hm, _⟩ := hr.exists_goal hi
    exact ⟨m, hm⟩
  obtain ⟨ms, _, hms, rfl, htold⟩ := exists_mapM_forall₂ (I := (· = s')) (R := r.ReadsAs)
    (fun e he s hs => by
      obtain ⟨ms, hms⟩ := hmean e he
      exact ⟨(e.1, ms), s, Gives.ofExcept_bind hms gives_done, hs,
        rfl, hms⟩) rfl
  refine ⟨cs, cs', ms, _, hcs, hplaces, r.clueMeanings_eq cs ▸ hplaces.bind hms, htold, ?_⟩
  rintro c ⟨j, hj⟩
  by_cases hkeep : ∃ k, Has (matched cs) k c ∧ ¬GivesUp (matched cs) k c
  case pos =>
    rw [iff_true_right (.inl hkeep)]
    obtain ⟨k, hk, hg⟩ := hkeep
    obtain ⟨k, hk, hu⟩ := hown k c hk hg
    refine ⟨k, (hgrown.has k c).mpr (.inl hk), fun l hl => hu l ?_⟩
    exact ((hgrown.has l c).mp hl).resolve_right fun hl => hl.right.left k hk
  case neg =>
    rw [or_iff_right hkeep]
    have hnot (k : Int) (hk : Has cs₂ k c) : False := hkeep ⟨k, hfrom k c hk⟩
    refine existsUnique_congr fun k => ?_
    rw [hgrown.has, or_iff_right (hnot k), and_iff_right (hclue j c hj), and_iff_right hnot, hkeys']

end Table

namespace Functions

open Path.Dwellings (type element)
open SessionM.Dwelling (works works_fit)
open Employment (person job works_legible)

def names     := type 5 .phenomenon "namen"
def functions := type 6 .phenomenon "functies"
def name      := element 7 .variable "naam" person names
def function  := element 9 .variable "functie" job functions
def tjalling  := element 11 .constant "Tjalling" names names

-- The function stands between two mentions of a name, each of which has another clue.
def request : Request where
  meanings := [.term name, .term tjalling, .term function, .term tjalling, .term name]
  keywords := [category, constant, category, constant, category]

def table : Clues :=
  [(1, [-1, -1, 0, 2, -1]), (3, [-1, -1, 2, 4, -1])]

theorem suits_name : Suits category (.term name) :=
  ⟨fun h => absurd h (by decide), fun _ => ⟨names, rfl, Term.TypeKind.isType ⟨_, _, _, _, _, rfl, rfl⟩⟩⟩

theorem suits_function : Suits category (.term function) :=
  ⟨fun h => absurd h (by decide), fun _ =>
    ⟨functions, rfl, Term.TypeKind.isType ⟨_, _, _, _, _, rfl, rfl⟩⟩⟩

theorem fitting : request.Fitting :=
  .cons suits_name <| .cons (suits_other (by decide)) <| .cons suits_function <|
    .cons (suits_other (by decide)) <| .cons suits_name .nil

theorem places_constant : request.places [constant] = [1, 3] := by
  decide

theorem valued : request.Valued := by
  intro k hk
  have hp : k ∈ request.places [constant] := by simpa [mem_request_places] using hk
  rw [places_constant] at hp
  obtain rfl | rfl : k = 1 ∨ k = 3 := by simpa using hp
  all_goals exact ⟨.term tjalling, names, rfl, rfl⟩

theorem gives_table (s : Session) : request.clueTable.Gives s table s := by
  have h₁ : clues request.keywords 1 = .ok [-1, -1, 0, 2, -1] := by cbv
  have h₃ : clues request.keywords 3 = .ok [-1, -1, 2, 4, -1] := by cbv
  rw [clueTable, places_constant]
  exact Gives.mapM_cons (Gives.ofExcept_bind h₁ gives_done) <|
    Gives.mapM_cons (Gives.ofExcept_bind h₃ gives_done) gives_mapM_nil

theorem matched_table : matched table = [(1, [0, 2]), (3, [2, 4])] := by
  decide

theorem gives_up (k : Int) (hk : Has (matched table) k 2) : GivesUp (matched table) k 2 := by
  rw [matched_table] at hk ⊢
  obtain rfl | rfl : k = 1 ∨ k = 3 := by grind [Has]
  · exact ⟨3, 0, by simp, by simp [Has], by simp, by simp [Has], by grind [Has]⟩
  · exact ⟨1, 4, by simp, by simp [Has], by simp, by simp [Has], by simp⟩

theorem not_concerns (k : Int) (hk : k ∈ table.map Prod.fst) :
    ¬request.Concerns works.graph 2 k := by
  rintro ⟨_, _, _, _, ⟨⟩, hm, ⟨⟩, ht, hc⟩
  obtain rfl | rfl : k = 1 ∨ k = 3 := by simpa [table] using hk
  all_goals
    cases hm
    cases ht
    rcases hc with hc | ⟨_, hc⟩
    · exact absurd hc (by decide)
    · exact hc (by decide)

-- In the end it is a clue of no name at all.
theorem function_of_no_name : works.Legible ∧ request.Fitting ∧ request.Valued ∧
    ∃ s₀, Session.start works = .ok s₀ ∧ Reached s₀ s₀ ∧ ∃ cs cs' s',
      request.clueTable.Gives s₀ cs s₀ ∧ (request.cluePlaces cs).Gives s₀ cs' s' ∧
      Has (matched cs) 1 2 ∧ ¬∃! k, Has cs' k 2 := by
  obtain ⟨s₀, h₀⟩ := start_of_fit works_fit rfl
  obtain ⟨cs, cs', _, s', hcs, hcs', _, _, hown⟩ :=
    clue_owned_once_iff works_legible h₀ .start fitting valued
  obtain rfl := (hcs.unique (gives_table s₀)).left
  have hhas : Has (matched table) 1 2 := ⟨[0, 2], by simp [matched_table], by simp⟩
  refine ⟨works_legible, fitting, valued, s₀, h₀, .start, _, cs', s', hcs, hcs', hhas, ?_⟩
  rw [hown 2 ⟨1, hhas⟩]
  rintro (⟨k, hk, hg⟩ | ⟨k, ⟨hk, hc⟩, _⟩)
  · exact hg (gives_up k hk)
  · exact not_concerns k hk hc

end Functions

end Request
end Inquiry
