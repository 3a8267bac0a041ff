import Mathlib
import Inquiry.Proofs.Bounded
import Inquiry.Sql.Compile

/-!
Writing and changing queries never asks for a place past the end of a list, and the number of columns
stays the same.
-/

namespace Inquiry

theorem Text.bounded_fill (cs : List Char) (args : List String) :
    Bounded (fun _ => True) (fill cs args) := by
  fun_induction fill cs args
  all_goals first
    | exact Bounded.map ‹_› fun _ _ => trivial
    | simp

namespace Sql

namespace Item

variable (i : Item)

theorem bounded_asName : Bounded (fun _ => True) i.asName := by
  rw [asName]
  cases i.asName? <;> simp

theorem bounded_table : Bounded (fun _ => True) i.table := by
  cases i <;> simp [table]

theorem bounded_name : Bounded (fun _ => True) i.name := by
  cases i <;> simp [name]

theorem bounded_renameTable (old new : String) : Bounded (fun _ => True) (i.renameTable old new) := by
  cases i <;> simp [renameTable]

mutual

theorem bounded_text : (i : Item) → Bounded (fun _ => True) i.text
  | column .. => by simp [text]
  | expr _ [] _ _ _ => by simp [text]
  | expr _ (arg :: more) _ _ _ => by
    rw [text]
    split
    · exact (bounded_text arg).bind fun _ _ => trivial
    · exact (bounded_text arg).bind fun _ _ => (bounded_textsOf more).bind fun _ _ =>
        (Text.bounded_fill _ _).bind fun _ _ => trivial

theorem bounded_textsOf : (is : List Item) → Bounded (fun _ => True) (text.textsOf is)
  | []      => trivial
  | i :: is => (bounded_text i).bind fun _ _ => (bounded_textsOf is).bind fun _ _ => trivial

end

end Item

theorem bounded_mapM {f : α → Except Failure β} {as : List α} (h : ∀ a, Bounded (fun _ => True) (f a)) :
    Bounded (fun bs => bs.length = as.length) (as.mapM f) :=
  (Bounded.mapM (R := fun _ _ => True) fun a _ => h a).imp fun _ h => h.length_eq.symm

theorem bounded_perMention {f : Item → Except Failure Item} (h : ∀ i, Bounded (fun _ => True) (f i))
    (ns : List Nat) (i : Item) : Bounded (fun _ => True) (perMention ns f i) :=
  Bounded.foldlM trivial fun i _ _ => h i

theorem bounded_renameTables (old new : String) (is : List Item) :
    Bounded (fun js => js.length = is.length) (renameTables old new is) :=
  bounded_mapM fun i => bounded_perMention (Item.bounded_renameTable · old new) _ i

namespace Cond

theorem bounded_text (c : Cond) : Bounded (fun _ => True) c.text :=
  c.lhs.bounded_text.bind fun _ _ => c.rhs.bounded_text.bind fun _ _ => trivial

theorem bounded_isTrivial (c : Cond) : Bounded (fun _ => True) c.isTrivial :=
  c.lhs.bounded_text.bind fun _ _ => c.rhs.bounded_text.bind fun _ _ => trivial

theorem bounded_renameTables (old new : String) (cs : List Cond) :
    Bounded (fun _ => True) (renameTables old new cs) := by
  have h := bounded_perMention (Item.bounded_renameTable · old new) (sides cs)
  refine (bounded_mapM fun c => ?_).imp fun _ _ => trivial
  exact (h c.lhs).bind fun _ _ => (h c.rhs).bind fun _ _ => trivial

end Cond

namespace Join

variable (j k : Join)

theorem bounded_condsText : Bounded (fun _ => True) j.condsText :=
  (bounded_mapM Cond.bounded_text).bind fun _ _ => trivial

theorem bounded_text : Bounded (fun _ => True) j.text :=
  j.bounded_condsText.bind fun _ _ => trivial

theorem bounded_isTrivial : Bounded (fun _ => True) j.isTrivial :=
  Bounded.allM Cond.bounded_isTrivial

theorem bounded_renameAlias (old new : String) : Bounded (fun _ => True) (j.renameAlias old new) :=
  (Cond.bounded_renameTables old new j.conds).bind fun _ _ => trivial

theorem bounded_alike : Bounded (fun _ => True) (j.alike k) := by
  rw [alike]
  split
  · trivial
  · refine Bounded.allM fun (c, d) => ?_
    refine c.lhs.bounded_name.bind fun _ _ => d.lhs.bounded_name.bind fun _ _ => ?_
    split
    · trivial
    · exact c.rhs.bounded_text.bind fun _ _ => d.rhs.bounded_text.bind fun _ _ => trivial

end Join

namespace Body

structure HasColumns (m n : Nat) (b : Body) : Prop where
  domain   : b.domain.length = m
  codomain : b.codomain.length = n

variable {m n : Nat} {b : Body}

theorem bounded_text (b : Body) : Bounded (fun _ => True) b.text := by
  have hc : Bounded (fun _ => True) b.columnsText :=
    (bounded_mapM Item.bounded_text).bind fun _ _ => trivial
  have hj : Bounded (fun _ => True) b.joinsText :=
    (bounded_mapM fun j => j.bounded_text.bind fun _ _ => Bounded.pure.mpr trivial).bind
      fun _ _ => trivial
  have hw : Bounded (fun _ => True) b.wheresText :=
    (bounded_mapM Cond.bounded_text).bind fun ts _ => by cases ts <;> trivial
  have hg : Bounded (fun _ => True) b.groupsText :=
    (bounded_mapM Item.bounded_text).bind fun ts _ => by cases ts <;> trivial
  exact hc.bind fun _ _ => hj.bind fun _ _ => hw.bind fun _ _ => hg.bind fun _ _ => trivial

theorem bounded_addJoin (j : Join) (h : b.HasColumns m n) :
    Bounded (HasColumns m n) (b.addJoin j) := by
  refine (Bounded.anyM (Join.bounded_alike · j)).bind fun found _ => ?_
  cases found
  case true  => exact h
  case false => exact ⟨h.domain, h.codomain⟩

theorem bounded_addWhere (c : Cond) (h : b.HasColumns m n) :
    Bounded (HasColumns m n) (b.addWhere c) := by
  refine (Bounded.anyM fun d => ?_).bind fun found _ => ?_
  · exact d.bounded_text.bind fun _ _ => c.bounded_text.bind fun _ _ => trivial
  · cases found
    case true  => exact h
    case false => exact ⟨h.domain, h.codomain⟩

theorem bounded_tidy (h : b.HasColumns m n) : Bounded (HasColumns m n) b.tidy := by
  have hj : Bounded (HasColumns m n) (b.joins.foldlM addJoin { b with joins := [], wheres := [] }) :=
    Bounded.foldlM ⟨h.domain, h.codomain⟩ fun _ j h => bounded_addJoin j h
  exact hj.bind fun _ h => Bounded.foldlM h fun _ c h => bounded_addWhere c h

theorem bounded_replaceSide (old new : String) (i : Item) :
    Bounded (fun _ => True) (replaceSide old new i) :=
  i.bounded_table.bind fun _ _ => by split <;> trivial

theorem bounded_keepJoin (kept : List Join) (j : Join) :
    Bounded (fun _ => True) (keepJoin kept j) := by
  refine j.bounded_isTrivial.bind fun trivially _ => ?_
  split
  · trivial
  · refine (Bounded.allM fun k => ?_).bind fun _ _ => trivial
    refine (j.bounded_alike k).bind fun alike _ => ?_
    split
    · trivial
    · exact j.bounded_condsText.bind fun _ _ => k.bounded_condsText.bind fun _ _ => trivial

theorem bounded_replaceTable (old new : String) (h : b.HasColumns m n) :
    Bounded (HasColumns m n) (b.replaceTable old new) := by
  rw [replaceTable]
  cases b.source
  case none => simp
  case some source =>
    refine (Bounded.foldlM (Q := fun _ => True) trivial fun ks j _ => bounded_keepJoin ks j).bind ?_
    intro joins _
    refine (bounded_mapM fun c : Cond => ?_).bind fun wheres _ => ?_
    · exact (bounded_replaceSide old new c.lhs).bind fun _ _ =>
        (bounded_replaceSide old new c.rhs).bind fun _ _ => trivial
    · have hs (groups : Grouping) : HasColumns m n
          { b with domain := b.domain.map (Item.replaceTable old new),
                   codomain := b.codomain.map (Item.replaceTable old new),
                   source := some (source.replaceTable old new), joins, wheres, groups } :=
        ⟨by simp [h.domain], by simp [h.codomain]⟩
      cases b.groups
      case whole => exact hs .whole
      case «by» cols =>
        refine Bounded.bind (P := fun _ => True) ?_ fun groups _ => hs groups
        exact (bounded_mapM (bounded_replaceSide old new)).map fun _ _ => trivial

end Body

theorem bounded_columnNames (n : Nat) (is : List Item) (named : List (Nat × String)) :
    Bounded (fun _ => True) (columnNames n is named) := by
  induction is generalizing n named
  case nil => trivial
  case cons i is ih =>
    refine i.bounded_asName.bind fun a _ => ?_
    split <;> exact ih ..

namespace Query

variable {m n : Nat}

theorem bounded_dedupFrom (all rest : List Frozen) (k : Nat) {d : Dedup}
    (h : d.main.HasColumns m n) :
    Bounded (fun d' => d'.main.HasColumns m n) (dedupFrom all k rest d) := by
  induction k generalizing rest d
  case zero => cases rest <;> exact h
  case succ k ih =>
    cases rest
    case nil => exact h
    case cons f rest =>
      rw [dedupFrom]
      refine f.toBody.bounded_text.bind fun text _ => ?_
      split
      · exact ih _ h
      · refine (bounded_mapM fun g : Frozen => ?_).bind fun rest' _ => ?_
        · exact (Body.bounded_replaceTable _ _ ⟨rfl, rfl⟩).bind fun _ _ => trivial
        · exact (Body.bounded_replaceTable _ _ h).bind fun main hm => ih _ hm

theorem bounded_dedup {q : Query} (h : q.HasColumns m n) :
    Bounded (fun q' => q'.HasColumns m n) q.dedup :=
  (bounded_dedupFrom _ _ _ h).bind fun _ h => h

end Query

open SessionM

theorem safe_newPart : newPart.Safe fun _ => True :=
  safe_modifyGet

theorem Item.safe_bare (i : Item) : i.bare.Safe fun _ => True := by
  rw [bare.eq_def]
  split
  · exact safe_newPart.bind fun _ _ => safe_pure trivial
  · exact safe_throw (by simp)

theorem Item.safe_create (table name asName : String) :
    (Item.create table name asName).Safe fun _ => True :=
  safe_newPart.bind fun _ _ => safe_pure trivial

theorem Item.safe_copies (is : List Item) : (copies is).Safe fun js => js.length = is.length :=
  safe_modifyGet.bind fun _ _ => safe_pure (by simp)

theorem safe_mapM_length {α β : Type} {f : α → SessionM β} {as : List α}
    (h : ∀ a, (f a).Safe fun _ => True) : (as.mapM f).Safe fun bs => bs.length = as.length :=
  (safe_mapM (R := fun _ _ => True) fun a _ => h a).imp fun _ h => h.length_eq.symm

theorem Join.safe_create (table asName : String) (conds : List (Item × Item)) :
    (Join.create table asName conds).Safe fun _ => True :=
  (safe_mapM_length fun _ => safe_newPart.bind fun _ _ => safe_pure trivial).bind fun _ _ =>
    safe_newPart.bind fun _ _ => safe_pure trivial

namespace Query

variable {m n : Nat}

theorem safe_create {b : Body} (frozen : List Frozen) (h : b.HasColumns m n) :
    (Query.create b frozen).Safe fun q => q.HasColumns m n :=
  (safe_ofExcept (Body.bounded_tidy h)).bind fun _ h => safe_newPart.bind fun _ _ => safe_pure h

theorem safe_freeze {q : Query} (h : q.HasColumns m n) :
    q.freeze.Safe fun q' => q'.HasColumns m n := by
  have hr (table : String) (i : Item) : (Item.create table (i.asName?.getD "") "").Safe fun _ => True :=
    Item.safe_create table _ ""
  refine Safe.bind (P := fun _ => True) (fun _ => trivial) fun s _ => ?_
  refine Safe.bind (P := fun _ => True) (fun _ => trivial) fun _ _ => ?_
  refine (safe_ofExcept (bounded_columnNames ..)).bind fun named _ => safe_newPart.bind fun _ _ => ?_
  refine (safe_mapM_length (hr _)).bind fun domain hd => ?_
  refine (safe_mapM_length (hr _)).bind fun codomain hc => safe_pure ?_
  exact ⟨by simpa [h.domain] using hd, by simpa [h.codomain] using hc⟩

end Query

theorem safe_get {xs : List α} {i : Nat} (h : i < xs.length) : (get xs i).Safe fun x => x ∈ xs := by
  refine safe_ofExcept ?_
  rw [Sequence.get_natCast (List.getElem?_eq_getElem h)]
  exact List.getElem_mem h

end Sql
end Inquiry
