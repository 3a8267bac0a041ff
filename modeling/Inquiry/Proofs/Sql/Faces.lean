import Mathlib
import Inquiry.Proofs.Session.Passing
import Inquiry.Proofs.Sql.Tables
import Inquiry.Sql.Compile

/-!
What the columns of a query are called, and how parts are numbered. Changes to a query put other
tables in it and never rename a column; only where the result of a query is kept, its columns get
new names, and what was an alias becomes the name.
-/

namespace Inquiry

open List

namespace Sql

open SessionM

-- What a column is called: its alias, and its name unless it is computed.
structure Face where
  asName : Option String
  name   : Option String
  deriving DecidableEq

namespace Face

-- Rows can be ordered by the column.
def marked (f : Face) : Bool :=
  f.asName == some keyAlias || f.name == some keyAlias

structure Plain (f : Face) : Prop where
  asName : f.asName = some ""
  name   : f.name ≠ some keyAlias

theorem Plain.marked {f : Face} (h : f.Plain) : f.marked = false := by
  have ha : f.asName ≠ some keyAlias := by simp [h.asName, keyAlias]
  simp [Face.marked, ha, h.name]

end Face

namespace Item

variable {i j : Item} {old new : String}

def face (i : Item) : Face :=
  ⟨i.asName?, i.name.toOption⟩

@[simp]
theorem face_column (p : Nat) (t n : String) (a : Option String) :
    (column p t n a).face = ⟨a, some n⟩ := rfl

@[simp]
theorem face_expr (p : Nat) (args : List Item) (a before between : String) :
    (expr p args a before between).face = ⟨some a, none⟩ := rfl

@[simp]
theorem asName_face (i : Item) : i.face.asName = i.asName? := rfl

@[simp]
theorem face_replaceTable (old new : String) (i : Item) :
    (i.replaceTable old new).face = i.face := by
  cases i <;> rfl

@[simp]
theorem face_renumber (f : Nat → Nat) (i : Item) : (i.renumber f).face = i.face := by
  cases i <;> rfl

theorem renameTable_keeps (h : i.renameTable old new = .ok j) :
    j.face = i.face ∧ j.part = i.part := by
  cases i
  case column => exact Except.ok.inj h ▸ ⟨rfl, rfl⟩
  case expr   => simp [renameTable] at h

end Item

theorem perMention_keeps {mentions : List Nat} {i j : Item} {old new : String}
    (h : perMention mentions (Item.renameTable old new) i = .ok j) :
    j.face = i.face ∧ j.part = i.part := by
  rw [perMention] at h
  generalize mentions.count i.part = n at h
  induction n generalizing i
  case zero => simp_all
  case succ n ih =>
    simp only [replicate_succ, foldlM_cons, bind_eq_ok] at h
    have ⟨k, hk, h⟩ := h
    have ⟨hf, hp⟩ := Item.renameTable_keeps hk
    exact hf ▸ hp ▸ ih h

theorem renameTables_keeps {is js : List Item} {old new : String}
    (h : renameTables old new is = .ok js) :
    js.map Item.face = is.map Item.face ∧ js.map Item.part = is.map Item.part := by
  have h := mapM_eq_ok.mp h
  exact ⟨(map_eq_map_of_forall₂ h fun _ _ hj => (perMention_keeps hj).left.symm).symm,
    (map_eq_map_of_forall₂ h fun _ _ hj => (perMention_keeps hj).right.symm).symm⟩

namespace Body

variable {b b' : Body}

theorem tidy_eq (h : b.tidy = .ok b') : b' = { b with joins := b'.joins, wheres := b'.wheres } := by
  have step {α : Type} {f : Body → α → Except Failure Body} {as : List α} {b b' : Body}
      (hf : ∀ b a b', f b a = .ok b' → b' = { b with joins := b'.joins, wheres := b'.wheres })
      (h : as.foldlM f b = .ok b') : b' = { b with joins := b'.joins, wheres := b'.wheres } := by
    induction as generalizing b
    case nil => simp_all
    case cons a as ih =>
      simp only [foldlM_cons, bind_eq_ok] at h
      have ⟨b₁, h₁, h⟩ := h
      rw [ih h, hf b a b₁ h₁]
  simp only [tidy, bind_eq_ok] at h
  have ⟨b₁, hj, hw⟩ := h
  replace hj := step (fun b j b' h => ?_) hj
  replace hw := step (fun b c b' h => ?_) hw
  · rw [hw, hj]
  all_goals
    simp only [addJoin, addWhere, bind_eq_ok] at h
    have ⟨found, _, h⟩ := h
    cases found <;> simp at h <;> rw [← h]

-- Two bodies have columns that are called alike, and are ordered alike.
structure Resembles (b b' : Body) : Prop where
  domain   : b'.domain.map Item.face = b.domain.map Item.face
  codomain : b'.codomain.map Item.face = b.codomain.map Item.face
  orderBy  : b'.orderBy = b.orderBy

theorem Resembles.refl (b : Body) : b.Resembles b :=
  ⟨rfl, rfl, rfl⟩

theorem Resembles.trans {b'' : Body} (h : b.Resembles b') (h' : b'.Resembles b'') :
    b.Resembles b'' :=
  ⟨h'.domain.trans h.domain, h'.codomain.trans h.codomain, h'.orderBy.trans h.orderBy⟩

theorem resembles_replaceTable {old new : String} (h : b.replaceTable old new = .ok b') :
    b.Resembles b' := by
  have hr := replaced_of_replaceTable h
  have hf : (Item.face ∘ Item.replaceTable old new) = Item.face := by
    funext i
    simp
  refine ⟨by simp [hr.domain, hf], by simp [hr.codomain, hf], ?_⟩
  simp only [replaceTable] at h
  cases hs : b.source <;> simp only [hs, throw_ne_ok, bind_eq_ok] at h
  obtain ⟨_, _, _, _, h⟩ := h
  cases hg : b.groups <;> simp only [hg, bind_eq_ok, pure_eq_ok] at h <;>
    obtain ⟨_, _, rfl⟩ := h <;> rfl

end Body

theorem Query.resembles_dedup {q q' : Query} (h : q.dedup = .ok q') :
    q.toBody.Resembles q'.toBody := by
  have step {all rest : List Frozen} {n : Nat} {d d' : Dedup}
      (h : dedupFrom all n rest d = .ok d') : d.main.Resembles d'.main := by
    induction n generalizing rest d
    case zero => cases rest <;> cases h <;> exact .refl _
    case succ n ih =>
      cases rest
      case nil => cases h; exact .refl _
      case cons f rest =>
        simp only [dedupFrom, bind_eq_ok] at h
        obtain ⟨text, _, h⟩ := h
        split at h
        · exact ih (d := { d with kept := d.kept ++ [f], texts := d.texts ++ [text] }) h
        · simp only [bind_eq_ok] at h
          obtain ⟨_, _, main, hm, h⟩ := h
          exact (Body.resembles_replaceTable hm).trans (ih h)
  simp only [dedup, bind_eq_ok, pure_eq_ok] at h
  obtain ⟨d, hd, rfl⟩ := h
  exact step hd

end Sql

-- A later state has at least as many numbers for parts in use.
def Session.PartsGrow (s s' : Session) : Prop :=
  s.parts ≤ s'.parts

instance : Std.Refl Session.PartsGrow := ⟨fun _ => le_rfl⟩
instance : IsTrans Session Session.PartsGrow := ⟨fun _ _ _ => le_trans⟩

namespace SessionM

-- The action takes numbers for parts only from those that are free; what it gives is right for the
-- number of parts that are then in use.
def Spends (x : SessionM α) (s : Session) (Q : Nat → α → Prop) : Prop :=
  x.Passes (fun _ => True) Session.PartsGrow s fun s' a => Q s'.parts a

variable {x : SessionM α} {f : α → SessionM β} {s : Session} {P P' : Nat → α → Prop}
  {Q : Nat → β → Prop} {a : α} {as : List α}

theorem spends_pure (h : P s.parts a) : (pure a : SessionM α).Spends s P :=
  passes_pure trivial h

theorem spends_throw {e : Failure} : (throw e : SessionM α).Spends s P :=
  passes_throw trivial

theorem spends_ofExcept {e : Except Failure α} (h : ∀ a, e = .ok a → P s.parts a) :
    (ofExcept e : SessionM α).Spends s P :=
  passes_ofExcept trivial h

theorem spends_outcome {e : Except Failure α} :
    (ofExcept e : SessionM α).Spends s fun _ _ => True :=
  spends_ofExcept fun _ _ => trivial

theorem spends_get : (get : SessionM Session).Spends s fun _ _ => True :=
  (passes_get trivial).imp fun _ _ _ _ _ => trivial

theorem spends_modify {g : Session → Session} (h : s.parts ≤ (g s).parts) :
    (modify g : SessionM PUnit).Spends s fun _ _ => True :=
  .of_gives (a := ⟨⟩) (gives_modify.mpr rfl) trivial h trivial

theorem Spends.bind (h : x.Spends s P)
    (hf : ∀ a s', s.parts ≤ s'.parts → P s'.parts a → (f a).Spends s' Q) : (x >>= f).Spends s Q :=
  Passes.bind h fun a s' _ hr hq => hf a s' hr hq

theorem Spends.imp (h : x.Spends s P) (hp : ∀ n a, s.parts ≤ n → P n a → P' n a) :
    x.Spends s P' :=
  Passes.imp h fun s' a _ hr hq => hp s'.parts a hr hq

theorem Spends.map {g : α → β} (h : x.Spends s P) (hg : ∀ n a, s.parts ≤ n → P n a → Q n (g a)) :
    (g <$> x).Spends s Q := by
  rw [map_eq_pure_bind]
  exact h.bind fun a s' hle ha => spends_pure (hg _ a hle ha)

theorem Spends.and (h : x.Spends s P) (h' : x.Spends s P') : x.Spends s fun n a => P n a ∧ P' n a :=
  ⟨trivial, h.2.1, fun a ha => ⟨h.2.2 a ha, h'.2.2 a ha⟩⟩

theorem Spends.gives {s' : Session} (h : x.Spends s P) (hg : x.Gives s a s') : P s'.parts a := by
  have := h.2.2
  rw [hg] at this
  exact this a rfl

theorem spends_mapM_forall₂ {R : γ → α → Prop} {R' : Nat → γ → β → Prop} {cs : List γ}
    (hR : ∀ m n c b, m ≤ n → R' m c b → R' n c b) (h : Forall₂ R cs as)
    (hf : ∀ c a s', s.parts ≤ s'.parts → R c a → (f a).Spends s' (R' · c)) :
    (as.mapM f).Spends s fun n => Forall₂ (R' n) cs := by
  induction h generalizing s
  case nil => exact spends_pure .nil
  case cons c a cs as ha _ ih =>
    rw [mapM_cons]
    refine (hf c a s le_rfl ha).bind fun b s₁ h₁ hb => ?_
    refine (ih fun c a s' hs' => hf c a s' (h₁.trans hs')).bind fun bs s₂ h₂ hbs => ?_
    exact spends_pure (.cons (hR _ _ c b h₂ hb) hbs)

theorem spends_mapM {R : Nat → α → β → Prop} (hR : ∀ m n a b, m ≤ n → R m a b → R n a b)
    (h : ∀ a ∈ as, ∀ s', s.parts ≤ s'.parts → (f a).Spends s' (R · a)) :
    (as.mapM f).Spends s fun n => Forall₂ (R n) as := by
  refine spends_mapM_forall₂ (R := fun c a => c = a ∧ a ∈ as) hR
    (forall₂_same.mpr fun a ha => ⟨rfl, ha⟩) ?_
  rintro a _ s' hs' ⟨rfl, ha⟩
  exact h a ha s' hs'

theorem spends_each (h : ∀ a ∈ as, ∀ s', s.parts ≤ s'.parts → (f a).Spends s' fun _ _ => True) :
    (as.mapM f).Spends s fun _ _ => True :=
  (spends_mapM (R := fun _ _ _ => True) (fun _ _ _ _ _ _ => trivial) h).imp fun _ _ _ _ => trivial

theorem spends_foldlM {f : β → α → SessionM β} {b : β} (hb : ∀ n, s.parts ≤ n → Q n b)
    (h : ∀ b a s', s.parts ≤ s'.parts → Q s'.parts b →
      (f b a).Spends s' fun n b' => ∀ m, n ≤ m → Q m b') : (as.foldlM f b).Spends s Q := by
  induction as generalizing s b
  case nil => exact spends_pure (hb _ le_rfl)
  case cons a as ih =>
    rw [foldlM_cons]
    refine (h b a s le_rfl (hb _ le_rfl)).bind fun b' s₁ h₁ hb' => ?_
    exact ih hb' fun b a s' hs' => h b a s' (h₁.trans hs')

end SessionM

namespace Sql

open SessionM

variable {s : Session} {named : List (Nat × String)} {is : List Item}

theorem spends_takeParts (k : Nat) :
    (takeParts k).Spends s fun n p => p = s.parts ∧ n = p + k :=
  Passes.of_gives (gives_modifyGet.mpr rfl) trivial (Nat.le_add_right _ k) ⟨rfl, rfl⟩

theorem spends_newPart : newPart.Spends s fun n p => p = s.parts ∧ n = p + 1 :=
  spends_takeParts 1

theorem spends_getAt (xs : List α) (i : Nat) : (get xs i).Spends s fun _ x => xs[i]? = some x :=
  spends_ofExcept fun _ h => Sequence.getElem?_of_get h

theorem spends_asQuery (c : Compiled) : c.asQuery.Spends s fun _ q => c = .query q := by
  cases c
  case query => exact spends_pure rfl
  all_goals exact spends_throw

theorem spends_mapM_asQuery (cs : List Compiled) :
    (cs.mapM Compiled.asQuery).Spends s fun _ qs => cs = qs.map .query := by
  refine (spends_mapM (R := fun _ (c : Compiled) (q : Query) => c = .query q)
    (fun _ _ _ _ _ h => h) fun c _ _ _ => spends_asQuery c).imp fun _ qs _ h => ?_
  simpa using map_eq_map_of_forall₂ (f := id) (g := Compiled.query) h fun _ _ h => h

theorem spends_renameTables (old new : String) (is : List Item) :
    (ofExcept (renameTables old new is) : SessionM (List Item)).Spends s fun _ js =>
      js.map Item.face = is.map Item.face ∧ js.map Item.part = is.map Item.part :=
  spends_ofExcept fun _ => renameTables_keeps

namespace Item

theorem spends_create (table name asName : String) : (Item.create table name asName).Spends s
    fun n i => i.face = ⟨some asName, some name⟩ ∧ i.part < n :=
  spends_newPart.bind fun p s' _ h => spends_pure ⟨rfl, by simp [part]; omega⟩

theorem spends_bare (i : Item) : i.bare.Spends s fun _ _ => True := by
  rw [bare.eq_def]
  split
  · exact spends_newPart.bind fun _ _ _ _ => spends_pure trivial
  · exact spends_throw

theorem part_renumber (f : Nat → Nat) (i : Item) : (i.renumber f).part = f i.part := by
  cases i <;> rfl

theorem part_mem_parts (i : Item) : i.part ∈ i.parts := by
  cases i <;> simp [part, parts]

theorem spends_copies (is : List Item) : (copies is).Spends s fun n js =>
    js.map face = is.map face ∧ ∀ j ∈ js, j.part < n := by
  refine (spends_takeParts _).bind fun p s' _ h => spends_pure ⟨by simp, fun j hj => ?_⟩
  obtain ⟨i, hi, rfl⟩ := mem_map.mp hj
  have hm : i.part ∈ is.flatMap parts := mem_flatMap.mpr ⟨i, hi, i.part_mem_parts⟩
  have := idxOf_lt_length_of_mem hm
  rw [part_renumber]
  omega

end Item

theorem Join.spends_create (table asName : String) (conds : List (Item × Item)) :
    (Join.create table asName conds).Spends s fun _ _ => True := by
  refine (spends_each fun _ _ _ _ => ?_).bind fun _ _ _ _ => ?_
  all_goals exact spends_newPart.bind fun _ _ _ _ => spends_pure trivial

theorem Query.spends_create (b : Body) (frozen : List Frozen) : (Query.create b frozen).Spends s
    fun _ q => q.toBody = { b with joins := q.joins, wheres := q.wheres } :=
  (spends_ofExcept (P := fun _ b' => b' = { b with joins := b'.joins, wheres := b'.wheres })
    fun _ => Body.tidy_eq).bind fun _ _ _ hb =>
      spends_newPart.bind fun _ _ _ _ => spends_pure hb

-- The name of a column in a temporary table becomes the name of the column that reads it.
def readFace (named : List (Nat × String)) (i : Item) : Face :=
  ⟨some "", some ((applyNames named i).asName?.getD "")⟩

-- The query `q'` reads what was stored of `q`.
structure Query.Reads (q : Query) (n : Nat) (q' : Query) : Prop where
  faces    : ∃ named, columnNames 0 q.items [] = .ok named ∧
    q'.domain.map Item.face = q.domain.map (readFace named) ∧
    q'.codomain.map Item.face = q.codomain.map (readFace named)
  parts    : ∀ i ∈ q'.items, i.part < n
  groups   : q'.groups = .by []
  distinct : q'.distinct = q.distinct
  orderBy  : q'.orderBy = q.orderBy

theorem Query.spends_freeze (q : Query) : q.freeze.Spends s fun n q' => q.Reads n q' := by
  have readBack (table : String) (named : List (Nat × String)) (is : List Item) (s : Session) :
      ((is.map (applyNames named)).mapM fun i => Item.create table (i.asName?.getD "") "").Spends s
        fun n js => js.map Item.face = is.map (readFace named) ∧ ∀ j ∈ js, j.part < n := by
    let R (n : Nat) (i j : Item) : Prop :=
      j.face = ⟨some "", some (i.asName?.getD "")⟩ ∧ j.part < n
    refine (spends_mapM (R := R) (fun m n i j hle h => ⟨h.1, h.2.trans_le hle⟩)
      fun i _ s' _ => Item.spends_create ..).imp fun n js _ h => ⟨?_, fun j hj => ?_⟩
    · rw [forall₂_map_left_iff] at h
      exact (map_eq_map_of_forall₂ h fun i j hj => hj.1.symm).symm
    · have ⟨i, _, hj⟩ := exists_of_mem_right h hj
      exact hj.2
  refine spends_get.bind fun _ s₁ _ _ => (spends_modify le_rfl).bind fun _ s₂ _ _ => ?_
  refine (spends_ofExcept (P := fun _ named => columnNames 0 q.items [] = .ok named)
    fun _ h => h).bind fun named s₃ _ hn => spends_newPart.bind fun p s₄ _ _ => ?_
  refine (readBack _ named q.domain s₄).bind fun dom s₅ _ hd => ?_
  refine (readBack _ named q.codomain s₅).bind fun cod s₆ hle hc => spends_pure ?_
  refine ⟨⟨named, hn, hd.1, hc.1⟩, fun i hi => ?_, rfl, rfl, rfl⟩
  exact (mem_append.mp hi).elim (fun h => (hd.2 i h).trans_le hle) (hc.2 i)

-- Only items without an alias get a name, which is not that of the marked column.
theorem columnNames_spec {n : Nat} {named' : List (Nat × String)}
    (h : columnNames n is named = .ok named') :
    (∀ x ∈ named', x ∈ named ∨ x.2 ≠ keyAlias ∧ ∃ i ∈ is, i.asName? = some "" ∧ i.part = x.1) ∧
    (∀ x ∈ named, x ∈ named') ∧ ∀ i ∈ is, i.asName? = some "" → ∃ x ∈ named', x.1 = i.part := by
  induction is generalizing n named
  case nil => simp_all [columnNames]
  case cons i is ih =>
    simp only [columnNames, bind_eq_ok] at h
    obtain ⟨a, ha, h⟩ := h
    have ha : i.asName? = some a := by
      cases hi : i.asName? <;> simp_all [Item.asName]
    have col (k : Nat) : "col" ++ toString k ≠ keyAlias := by
      intro he
      have := congrArg (fun s => s.toList.head?) he
      simp [keyAlias] at this
    split at h
    case isTrue hc =>
      simp only [Bool.and_eq_true, String.isEmpty_iff] at hc
      have ⟨h₁, h₂, h₃⟩ := ih h
      refine ⟨fun x hx => ?_, fun x hx => h₂ x (by simp [hx]), ?_⟩
      · obtain hx | ⟨hk, j, hj, hjx⟩ := h₁ x hx
        · obtain hx | rfl := mem_append.mp hx |>.imp_right mem_singleton.mp
          · exact .inl hx
          · exact .inr ⟨col n, i, by simp, hc.1 ▸ ha, rfl⟩
        · exact .inr ⟨hk, j, by simp [hj], hjx⟩
      · refine forall_mem_cons.mpr
          ⟨fun _ => ⟨_, h₂ (i.part, "col" ++ toString n) (by simp), rfl⟩, h₃⟩
    case isFalse hc =>
      have ⟨h₁, h₂, h₃⟩ := ih h
      refine ⟨fun x hx => (h₁ x hx).imp_right fun ⟨hk, j, hj, hjx⟩ => ⟨hk, j, by simp [hj], hjx⟩, h₂,
        forall_mem_cons.mpr ⟨fun hi => ?_, h₃⟩⟩
      obtain rfl : a = "" := by simpa [ha] using hi
      simp only [Bool.and_eq_true, not_and, Bool.not_eq_true', Bool.not_eq_false] at hc
      have ⟨x, hx, he⟩ := any_eq_true.mp (hc rfl)
      exact ⟨x, h₂ x hx, by simpa using he⟩

theorem lookup_mem {p : Nat} {a : String} (h : named.lookup p = some a) : (p, a) ∈ named := by
  obtain ⟨l, r, rfl, _⟩ := lookup_eq_some_iff.mp h
  simp

theorem plain_readFace {i : Item} (h : columnNames 0 is [] = .ok named) (hi : i ∈ is)
    (hp : i.face.Plain) : (readFace named i).Plain := by
  refine ⟨rfl, ?_⟩
  have ⟨h₁, _, h₃⟩ := columnNames_spec h
  have ⟨x, hx, hxp⟩ := h₃ i hi hp.asName
  cases ha : named.lookup i.part
  case none =>
    have := lookup_eq_none_iff.mp ha x hx
    simp [hxp] at this
  case some a =>
    have hk := ((h₁ _ (lookup_mem ha)).resolve_left (by simp)).1
    have hw : (i.withAlias a).asName? = some a := by cases i <;> rfl
    simpa [readFace, applyNames, ha, hw] using hk

theorem readFace_of_alone {i : Item} {a : String} (h : columnNames 0 is [] = .ok named)
    (ha : i.asName? = some a) (hi : ∀ j ∈ is, j.asName? = some "" → j.part ≠ i.part) :
    readFace named i = ⟨some "", some a⟩ := by
  have ⟨h₁, _, _⟩ := columnNames_spec h
  cases hl : named.lookup i.part
  case none   => simp [readFace, applyNames, hl, ha]
  case some b =>
    have ⟨_, j, hj, hn, hp⟩ := (h₁ _ (lookup_mem hl)).resolve_left (by simp)
    exact absurd hp (hi j hj hn)

end Sql
end Inquiry
