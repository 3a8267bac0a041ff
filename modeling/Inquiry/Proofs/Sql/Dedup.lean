import Mathlib
import Inquiry.Proofs.Sql.Tables
import Inquiry.Sql.Compile

/-!
Leaving out stored queries that read alike. A query whose text was seen before is left out, with
another table put in the place of its own in all queries that follow. This is the table of the kept
query of that text exactly if no query has been left out up to the place of that one.
-/

namespace Inquiry

open List

theorem exists_place_of_sublist {xs ys : List α} {i : Nat} {a : α} (h : xs <+ ys)
    (hi : xs[i]? = some a) : ∃ j, i ≤ j ∧ ys[j]? = some a := by
  induction h generalizing i
  case slnil => simp at hi
  case cons y _ ih =>
    have ⟨j, hj, ha⟩ := ih hi
    exact ⟨j + 1, by omega, by simpa using ha⟩
  case cons_cons y _ ih =>
    cases i
    case zero => exact ⟨0, le_rfl, by simpa using hi⟩
    case succ i =>
      obtain ⟨j, hj, ha⟩ := ih (i := i) (by simpa using hi)
      exact ⟨j + 1, by omega, by simpa using ha⟩

theorem getElem?_iff_take_eq_of_sublist {xs ys : List α} {i : Nat} {a : α} (h : xs <+ ys)
    (hn : ys.Nodup) (hi : xs[i]? = some a) :
    ys[i]? = some a ↔ xs.take (i + 1) = ys.take (i + 1) := by
  constructor
  case mpr =>
    intro ht
    have ht := congrArg (·[i]?) ht
    simpa [getElem?_take, hi, eq_comm] using ht
  case mp =>
    induction h generalizing i
    case slnil => simp at hi
    case cons xs ys y hs ih =>
      intro hy
      have ⟨j, hj, ha⟩ := exists_place_of_sublist hs hi
      -- The entry stands at place `i` and once more behind it.
      have hl : i < (y :: ys).length := (List.getElem?_eq_some_iff.mp hy).1
      have ha : (y :: ys)[j + 1]? = some a := by simpa using ha
      have := (getElem?_inj hl hn).mp (hy.trans ha.symm)
      omega
    case cons_cons xs ys y hs ih =>
      intro hy
      cases i
      case zero => simp
      case succ i =>
        simp only [getElem?_cons_succ] at hi hy
        simp [ih (nodup_cons.mp hn).right hi hy]

namespace Sql

-- Each stored query mentions only temporary tables that are filled before it.
def StagedAfter (temporary : String → Prop) : List String → List Frozen → Prop
  | _, []           => True
  | before, f :: fs =>
    (∀ t ∈ f.tables, temporary t → t ∈ before) ∧ StagedAfter temporary (before ++ [f.table]) fs

namespace StagedAfter

variable {temporary : String → Prop} {before : List String} {fs gs : List Frozen}

theorem append_iff : StagedAfter temporary before (fs ++ gs) ↔
    StagedAfter temporary before fs ∧ StagedAfter temporary (before ++ fs.map (·.table)) gs := by
  induction fs generalizing before <;> simp [StagedAfter]
  case cons f fs ih => simp [ih, and_assoc]

-- What is filled before may be more, but for a table that is not mentioned any longer.
theorem replace {old new : String} {before' : List String} (h : StagedAfter temporary before fs)
    (hr : Forall₂ (fun f g => f.table = g.table ∧ f.toBody.Replaced old new g.toBody) fs gs)
    (hb : ∀ t ∈ before, t = old ∨ t ∈ before') (hn : (∃ f ∈ fs, old ∈ f.tables) → new ∈ before') :
    StagedAfter temporary before' gs := by
  induction hr generalizing before before'
  case nil => trivial
  case cons f g fs gs hfg _ ih =>
    refine ⟨fun t ht hp => ?_, ih h.right ?_ ?_⟩
    · have ⟨u, hu, hut⟩ := mem_map.mp (hfg.right.tables_sublist.subset ht)
      by_cases ho : u = old
      case pos =>
        simp only [ho, standIn, beq_self_eq_true, if_true] at hut
        exact hut ▸ hn ⟨f, by simp, ho ▸ hu⟩
      case neg =>
        simp only [standIn, beq_iff_eq, ho, if_false] at hut
        subst hut
        exact hb u (h.left u hu hp) |>.resolve_left ho
    · intro t ht
      simp only [mem_append, mem_singleton, ← hfg.left] at ht ⊢
      cases ht
      case inl ht => exact (hb t ht).imp_right .inl
      case inr ht => exact .inr (.inr ht)
    · rintro ⟨f', hf', ho⟩
      exact mem_append_left _ (hn ⟨f', by simp [hf'], ho⟩)

end StagedAfter

namespace Query

-- The stored queries fill different tables, and no temporary table is mentioned before it is filled.
structure Staged (temporary : String → Prop) (q : Query) : Prop where
  distinct : (q.frozen.map (·.table)).Nodup
  frozen   : StagedAfter temporary [] q.frozen
  main     : ∀ t ∈ q.toBody.tables, temporary t → t ∈ q.frozen.map (·.table)

-- The table that is put in the place of that of a query whose text is the one at place `j`.
def substitute (all : List Frozen) (j : Nat) : String :=
  (all[j]?.map (·.table)).getD ""

-- Where a run stands: the stored queries that are still to be looked at, and what is done.
structure Progress where
  rest : List Frozen
  done : Dedup

def begin (q : Query) : Progress where
  rest := q.frozen
  done := { main := q.toBody }

namespace Progress

inductive Step (all : List Frozen) : Progress → Progress → Prop
  | keep {f rest d text} : (f.toBody.text = .ok text) → (d.texts.findIdx? (· == text) = none) →
    Step all ⟨f :: rest, d⟩ ⟨rest, { d with kept := d.kept ++ [f], texts := d.texts ++ [text] }⟩
  | leave {f rest rest' d text j main} : (f.toBody.text = .ok text) →
    (d.texts.findIdx? (· == text) = some j) →
    (Forall₂ (fun g g' => g.table = g'.table ∧
      g.toBody.replaceTable f.table (substitute all j) = .ok g'.toBody) rest rest') →
    (d.main.replaceTable f.table (substitute all j) = .ok main) →
    Step all ⟨f :: rest, d⟩ ⟨rest', { d with main }⟩

inductive Steps (all : List Frozen) : Progress → Progress → Prop
  | refl {p} : Steps all p p
  | step {p₁ p₂ p₃} : (Step all p₁ p₂) → (Steps all p₂ p₃) → Steps all p₁ p₃

variable {all : List Frozen} {p p₁ p₂ p₃ : Progress}

theorem Steps.trans (h₁ : Steps all p₁ p₂) (h₂ : Steps all p₂ p₃) : Steps all p₁ p₃ := by
  induction h₁
  case refl         => exact h₂
  case step e _ ih => exact .step e (ih h₂)

theorem Steps.of_dedupFrom {n : Nat} {rest : List Frozen} {d d' : Dedup}
    (h : dedupFrom all n rest d = .ok d') (hn : rest.length ≤ n) :
    Steps all ⟨rest, d⟩ ⟨[], d'⟩ := by
  induction n generalizing rest d <;> cases rest <;> simp only [dedupFrom, Except.ok.injEq] at h
  case zero.cons => simp at hn
  case succ.cons n ih f rest =>
    simp only [length_cons, Nat.add_le_add_iff_right] at hn
    simp only [bind_eq_ok] at h
    obtain ⟨text, ht, h⟩ := h
    cases hj : d.texts.findIdx? (· == text) <;> simp only [hj] at h
    case none => exact .step (.keep ht hj) (ih h hn)
    case some j =>
      simp only [bind_eq_ok] at h
      obtain ⟨rest', hr, main, hm, h⟩ := h
      have hr : Forall₂ (fun g g' => g.table = g'.table ∧
          g.toBody.replaceTable f.table (substitute all j) = .ok g'.toBody) rest rest' := by
        refine (mapM_eq_ok.mp hr).imp fun g g' hg => ?_
        simp only [bind_eq_ok, pure_eq_ok] at hg
        obtain ⟨_, hb, hg⟩ := hg
        subst hg
        exact ⟨rfl, hb⟩
      exact .step (.leave ht hj hr hm) (ih h (hr.length_eq ▸ hn))
  all_goals exact h ▸ .refl

-- What holds all the way: the kept queries are some of those seen, in their order, and their texts
-- are known.
structure Sound (all : List Frozen) (p : Progress) : Prop where
  tables : ∃ seen, all.map (·.table) = seen ++ p.rest.map (·.table) ∧
    p.done.kept.map (·.table) <+ seen
  texts  : Forall₂ (fun f text => f.toBody.text = .ok text) p.done.kept p.done.texts

theorem Step.sound (e : Step all p₁ p₂) (h : Sound all p₁) : Sound all p₂ := by
  have ⟨⟨seen, hs, hk⟩, ht⟩ := h
  cases e
  case keep f rest d text hf _ =>
    refine ⟨⟨seen ++ [f.table], by simp [hs], ?_⟩, ?_⟩
    · simpa using hk.append_right [f.table]
    · exact rel_append ht (.cons hf .nil)
  case leave f rest rest' d text j main hf hj hr _ =>
    have hr : rest.map (·.table) = rest'.map (·.table) :=
      map_eq_map_of_forall₂ hr fun _ _ hg => hg.left
    exact ⟨⟨seen ++ [f.table], by simp [hs, hr], hk.trans (sublist_append_left ..)⟩, ht⟩

theorem Steps.sound (e : Steps all p₁ p₂) (h : Sound all p₁) : Sound all p₂ := by
  induction e
  case refl        => exact h
  case step e _ ih => exact ih (e.sound h)

theorem Steps.kept_prefix (e : Steps all p₁ p₂) : p₁.done.kept <+: p₂.done.kept := by
  induction e
  case refl => exact prefix_rfl
  case step e _ ih =>
    refine .trans ?_ ih
    cases e
    case keep  => exact prefix_append ..
    case leave => exact prefix_rfl

theorem sound_begin (q : Query) : Sound q.frozen q.begin where
  tables := ⟨[], by simp [begin], by simp [begin]⟩
  texts  := .nil

-- The query `f` is left out next, since the query `twin`, kept at place `j`, has its text.
structure Leaves (p : Progress) (f twin : Frozen) (j : Nat) : Prop where
  next : p.rest.head? = some f
  twin : p.done.kept[j]? = some twin
  text : ∃ text, f.toBody.text = .ok text ∧ p.done.texts.findIdx? (· == text) = some j

-- The table is mentioned behind the query that is looked at next.
def Mentions (p : Progress) (t : String) : Prop :=
  (∃ g ∈ p.rest.tail, t ∈ g.tables) ∨ t ∈ p.done.main.tables

theorem Leaves.text_eq {f twin : Frozen} {j : Nat} (h : Leaves p f twin j) (hp : Sound all p) :
    twin.toBody.text = f.toBody.text := by
  have ⟨text, hf, hj⟩ := h.text
  have ⟨hl, heq, _⟩ := findIdx?_eq_some_iff_getElem.mp hj
  have ⟨hk, ht⟩ := List.getElem?_eq_some_iff.mp h.twin
  have ht' := hp.texts.get hk hl
  simp only [get_eq_getElem, ht, eq_of_beq heq] at ht'
  rw [ht', hf]

theorem Leaves.substitute_eq_iff {f twin : Frozen} {j : Nat} (h : Leaves p f twin j)
    (hp : Sound all p) (hd : (all.map (·.table)).Nodup) : substitute all j = twin.table ↔
      (p.done.kept.take (j + 1)).map (·.table) = (all.take (j + 1)).map (·.table) := by
  have ⟨⟨seen, hs, hk⟩, _⟩ := hp
  have hk : p.done.kept.map (·.table) <+ all.map (·.table) :=
    hk.trans (hs ▸ sublist_append_left ..)
  have ht : (p.done.kept.map (·.table))[j]? = some twin.table := by simp [h.twin]
  have ⟨i, hi, hj⟩ := exists_place_of_sublist hk ht
  have hl : j < all.length := by
    have := (List.getElem?_eq_some_iff.mp hj).1
    simp only [length_map] at this
    omega
  rw [map_take, map_take, ← getElem?_iff_take_eq_of_sublist hk hd ht]
  simp [substitute, hl]

-- As `Query.Staged`, in the middle of a run.
structure Staged (temporary : String → Prop) (p : Progress) : Prop where
  kept : StagedAfter temporary [] p.done.kept
  rest : StagedAfter temporary (p.done.kept.map (·.table)) p.rest
  main : ∀ t ∈ p.done.main.tables, temporary t →
    t ∈ p.done.kept.map (·.table) ++ p.rest.map (·.table)

theorem Sound.exists_twin {f : Frozen} {rest : List Frozen} {d : Dedup} {text : String} {j : Nat}
    (h : Sound all ⟨f :: rest, d⟩) (hf : f.toBody.text = .ok text)
    (hj : d.texts.findIdx? (· == text) = some j) :
    ∃ twin, d.kept[j]? = some twin ∧ Leaves ⟨f :: rest, d⟩ f twin j := by
  have ⟨hl, _, _⟩ := findIdx?_eq_some_iff_getElem.mp hj
  have hl : j < d.kept.length := h.texts.length_eq ▸ hl
  exact ⟨d.kept[j], by simp [hl], rfl, by simp [hl], text, hf, hj⟩

theorem Step.staged {temporary : String → Prop} (e : Step all p₁ p₂) (hs : Sound all p₁)
    (h : Staged temporary p₁) (hr : ∀ f twin j, Leaves p₁ f twin j → p₁.Mentions f.table →
      substitute all j = twin.table) : Staged temporary p₂ := by
  cases e
  case keep f rest d text _ _ =>
    refine ⟨?_, by simpa using h.rest.right, by simpa using h.main⟩
    exact StagedAfter.append_iff.mpr ⟨h.kept, h.rest.left, trivial⟩
  case leave f rest rest' d text j main hf hj hrest hmain =>
    have ⟨twin, ht, hl⟩ := hs.exists_twin hf hj
    have hrest := hrest.imp fun _ _ hg => And.imp_right Body.replaced_of_replaceTable hg
    have hmain := Body.replaced_of_replaceTable hmain
    -- Where the table is mentioned at all, a kept one takes its place.
    have hn : Mentions ⟨f :: rest, d⟩ f.table → substitute all j ∈ d.kept.map (·.table) :=
      fun hm => hr f twin j hl hm ▸ mem_map_of_mem (mem_of_getElem? ht)
    refine ⟨h.kept, h.rest.right.replace hrest ?_ (hn ∘ .inl), fun t ht hp => ?_⟩
    · intro t ht
      simpa [or_comm] using ht
    · have hts : rest.map (·.table) = rest'.map (·.table) :=
        map_eq_map_of_forall₂ hrest fun _ _ hg => hg.left
      have ⟨u, hu, hut⟩ := mem_map.mp (hmain.tables_sublist.subset ht)
      by_cases ho : u = f.table
      case pos =>
        simp only [ho, standIn, beq_self_eq_true, if_true] at hut
        exact mem_append_left _ (hut ▸ hn (.inr (ho ▸ hu)))
      case neg =>
        simp only [standIn, beq_iff_eq, ho, if_false] at hut
        subst hut
        have := h.main u hu hp
        simp only [map_cons, mem_append, mem_cons, ho, false_or] at this
        simpa [← hts] using this

end Progress

-- The run that makes `r` of `q` passes `p`.
structure Passes (q r : Query) (p : Progress) : Prop where
  before : Progress.Steps q.frozen q.begin p
  after  : ∃ texts, Progress.Steps q.frozen p ⟨[], ⟨r.frozen, texts, r.toBody⟩⟩

-- No reference dangles in `r`, and the tables of queries that were left out of `q` have become those
-- of the kept queries of the same text.
structure Faithful (temporary : String → Prop) (q r : Query) : Prop where
  resolved : r.Staged temporary
  replaced : ∀ p f twin j, Passes q r p → p.Leaves f twin j → p.Mentions f.table →
    twin ∈ r.frozen ∧ twin.toBody.text = f.toBody.text ∧ substitute q.frozen j = twin.table

-- Whenever a query is left out whose table is mentioned, all queries up to its twin were kept.
def Undrifted (q r : Query) : Prop :=
  ∀ p f twin j, Passes q r p → p.Leaves f twin j → p.Mentions f.table →
    (p.done.kept.take (j + 1)).map (·.table) = (q.frozen.take (j + 1)).map (·.table)

theorem steps_of_dedup {q r : Query} (h : q.dedup = .ok r) :
    ∃ texts, Progress.Steps q.frozen q.begin ⟨[], ⟨r.frozen, texts, r.toBody⟩⟩ := by
  simp only [dedup, bind_eq_ok, pure_eq_ok] at h
  obtain ⟨d, hd, h⟩ := h
  subst h
  exact ⟨d.texts, Progress.Steps.of_dedupFrom hd le_rfl⟩

open Progress in
theorem Staged.of_undrifted {temporary : String → Prop} {q r : Query} (hq : q.Staged temporary)
    (h : q.dedup = .ok r) (hu : Undrifted q r) : r.Staged temporary := by
  have ⟨texts, e⟩ := steps_of_dedup h
  -- The invariant goes along the rest of the run from any point that the run passes.
  have run : ∀ {p p'}, Steps q.frozen q.begin p → Steps q.frozen p p' →
      Steps q.frozen p' ⟨[], ⟨r.frozen, texts, r.toBody⟩⟩ →
      Progress.Staged temporary p → Progress.Staged temporary p' := by
    intro p p' hb e ha hp
    induction e
    case refl => exact hp
    case step e e' ih =>
      have hs := hb.sound (sound_begin q)
      refine ih (hb.trans (.step e .refl)) ha (e.staged hs hp fun f twin j hl hm => ?_)
      exact hl.substitute_eq_iff hs hq.distinct |>.mpr <|
        hu _ f twin j ⟨hb, texts, .step e (e'.trans ha)⟩ hl hm
  have hb : Progress.Staged temporary q.begin := ⟨trivial, hq.frozen, by simpa [begin] using hq.main⟩
  have ⟨hk, _, hm⟩ := run .refl e .refl hb
  have ⟨⟨seen, hs, hsub⟩, _⟩ := e.sound (sound_begin q)
  refine ⟨(hs ▸ hq.distinct).sublist (hsub.trans (by simp)), hk, by simpa using hm⟩

theorem faithful_iff_undrifted {temporary : String → Prop} {q r : Query} (hq : q.Staged temporary)
    (h : q.dedup = .ok r) : Faithful temporary q r ↔ Undrifted q r := by
  have sound {p} (hp : Passes q r p) := hp.before.sound (Progress.sound_begin q)
  constructor
  case mp =>
    intro hf p f twin j hp hl hm
    have ⟨_, _, hs⟩ := hf.replaced p f twin j hp hl hm
    exact hl.substitute_eq_iff (sound hp) hq.distinct |>.mp hs
  case mpr =>
    intro hu
    refine ⟨hq.of_undrifted h hu, fun p f twin j hp hl hm => ⟨?_, hl.text_eq (sound hp), ?_⟩⟩
    · have ⟨_, e⟩ := hp.after
      exact e.kept_prefix.subset (List.mem_of_getElem? hl.twin)
    · exact hl.substitute_eq_iff (sound hp) hq.distinct |>.mpr (hu p f twin j hp hl hm)

def totals (table kept : String) : Frozen where
  domain   := [.column 0 table (table ++ "_id") (some "col0")]
  codomain := [.column 1 table "x" (some "col1")]
  source   := some ⟨2, table, ""⟩
  table    := kept

-- Two totals, each of them kept twice, and the last one read.
def doubledTotals : Query where
  part     := 0
  domain   := [.column 1 "tmp0" "col0" (some "")]
  codomain := [.column 2 "tmp3" "col1" (some "")]
  source   := some ⟨3, "tmp0", ""⟩
  joins    := [⟨⟨4, "tmp3", ""⟩, [⟨5, .column 6 "tmp0" "col0" none, .column 7 "tmp3" "col0" none⟩]⟩]
  frozen   := [totals "a" "tmp0", totals "a" "tmp1", totals "b" "tmp2", totals "b" "tmp3"]

theorem doubledTotals_staged : doubledTotals.Staged (isTemporary ·) where
  distinct := by decide
  frozen   := by
    simp [StagedAfter, doubledTotals, totals, Body.tables, Body.items, Item.tables, Grouping.columns]
    decide
  main     := by decide

theorem doubledTotals_drifts : ∃ r, doubledTotals.Staged (isTemporary ·) ∧
    doubledTotals.dedup = .ok r ∧ ¬Faithful (isTemporary ·) doubledTotals r ∧
    ¬Undrifted doubledTotals r := by
  refine ⟨_, doubledTotals_staged, rfl, ?_⟩
  rw [← faithful_iff_undrifted doubledTotals_staged rfl, and_self]
  intro h
  -- The fourth table was left out, and the second one, left out before, put in its place.
  have := h.resolved.main "tmp1"
  revert this
  decide

end Query
end Sql
end Inquiry
