import Mathlib
import Inquiry.Proofs.Session.Parallel
import Inquiry.Proofs.Text.Codings
import Inquiry.Sql.Compile

/-!
Queries that differ in the codes of constants. Whatever is done to a query is done to the other one as
well, as long as the codes can be told apart where the others can, and no code holds a quote or
the name of a table.
-/

namespace Inquiry

open List

namespace Text.Coding

variable {ι : Type} (K : Coding ι)

def Formats (between : String) : Prop :=
  ∀ args args', Forall₂ K.Like args args' →
    Agree K.Like (fill between.toList args) (fill between.toList args')

end Text.Coding

namespace Sql

open SessionM Text

variable {ι : Type} {K : Coding ι} {old new new' : String} (ho : K.Avoids old) (hne : old ≠ "")
  (hn : K.Rooted new new')

-- The same item but for the codes that it mentions.
inductive Item.Recoded (K : Coding ι) : Item → Item → Prop
  | column {p t t' n n' a} : K.Rooted t t' → K.Single n n' → (∀ s ∈ a, Unquoted s) →
    Recoded K (.column p t n a) (.column p t' n' a)
  | expr {p args args' a before between} : Forall₂ (Recoded K) args args' → Unquoted a →
    Unquoted before → K.Formats between →
    Recoded K (.expr p args a before between) (.expr p args' a before between)

theorem led_aliasText {a : String} (h : Unquoted a) : K.Led (aliasText a) (aliasText a) := by
  unfold aliasText
  split
  · exact Coding.led_self (by decide)
  · exact Coding.led_word (by decide) (by decide) (Coding.led_self h).like

namespace Item

mutual

theorem Recoded.text : (i : Item) → {k : Item} → i.Recoded K k → Agree K.Like i.text k.text
  | .column p t n a, k, h => by
    cases h
    case column t' n' ht hn ha =>
      rw [Item.text, Item.text, ht.isEmpty_eq]
      have halias : K.Led (a.elim "" aliasText) (a.elim "" aliasText) := by
        cases a
        case none   => exact Coding.led_self (by decide)
        case some s => exact led_aliasText (ha s rfl)
      refine .ok (Coding.like_append ?_ halias)
      split
      · exact Coding.Single.like hn
      · rw [String.append_assoc, String.append_assoc]
        exact Coding.like_append ht.led.like
          (Coding.led_word (by decide) (by decide) (Coding.Single.like hn))
  | .expr p [] a before between, k, h => by
    cases h
    case expr args' hargs _ _ _ =>
      cases hargs
      exact .ok (Coding.led_self (by decide)).like
  | .expr p (arg :: more) a before between, k, h => by
    cases h
    case expr args' hargs ha hb hf =>
      cases hargs
      case cons arg' more' harg hmore =>
        rw [Item.text, Item.text, isEmpty_eq_of_forall₂ hmore]
        split
        · exact (Recoded.text arg harg).bind fun s s' hs =>
            .ok (Coding.like_append hs (led_aliasText ha))
        · refine (Recoded.text arg harg).bind fun s s' hs => ?_
          refine (Recoded.textsOf more hmore).bind fun ss ss' hss => ?_
          refine (hf _ _ (.cons hs hss)).bind fun inner inner' hinner => .ok ?_
          have hopen : K.Led (before ++ "(" ++ inner) (before ++ "(" ++ inner') := by
            rw [String.append_assoc, String.append_assoc]
            exact Coding.led_append (Coding.led_self hb)
              (Coding.led_word (by decide) (by decide) hinner)
          exact Coding.like_append (Coding.like_append hopen.like (Coding.led_self (by decide)))
            (led_aliasText ha)

theorem Recoded.textsOf : (is : List Item) → {ks : List Item} →
    Forall₂ (Recoded K) is ks →
      Agree (Forall₂ K.Like) (Item.text.textsOf is) (Item.text.textsOf ks)
  | [], ks, h => by
    cases h
    exact .ok .nil
  | i :: is, ks, h => by
    cases h
    case cons k ks hi his =>
      exact (Recoded.text i hi).bind fun s s' hs => (Recoded.textsOf is his).bind fun ss ss' hss =>
        .ok (.cons hs hss)

end

namespace Recoded

variable {i k : Item} {is ks : List Item}

theorem part_eq (h : i.Recoded K k) : i.part = k.part := by
  cases h <;> rfl

theorem asName?_eq (h : i.Recoded K k) : i.asName? = k.asName? := by
  cases h <;> rfl

theorem unquoted (h : i.Recoded K k) : ∀ s ∈ i.asName?, Unquoted s := by
  cases h
  case column _ _ ha => exact ha
  case expr ha _ _     => exact fun s hs => Option.some.inj hs ▸ ha

theorem unquoted_getD (h : i.Recoded K k) : Unquoted (i.asName?.getD "") := by
  cases hs : i.asName?
  case none   => decide
  case some s => exact h.unquoted s hs

theorem asName (h : i.Recoded K k) : Agree (fun s s' => s = s' ∧ Unquoted s) i.asName k.asName := by
  have hu := h.unquoted
  rw [Item.asName, Item.asName, ← h.asName?_eq]
  cases hs : i.asName?
  case none   => exact .error
  case some s => exact .ok ⟨rfl, hu s hs⟩

theorem table (h : i.Recoded K k) : Agree K.Rooted i.table k.table := by
  cases h
  case column ht _ _ => exact .ok ht
  case expr          => exact .error

theorem name (h : i.Recoded K k) : Agree K.Single i.name k.name := by
  cases h
  case column _ hn _ => exact .ok hn
  case expr          => exact .error

theorem withAlias {a : String} (h : i.Recoded K k) (ha : Unquoted a) :
    (i.withAlias a).Recoded K (k.withAlias a) := by
  cases h
  case column ht hn _      => exact .column ht hn fun s hs => Option.some.inj hs ▸ ha
  case expr hargs _ hb hf => exact .expr hargs ha hb hf

include ho hne hn in
theorem renameTable (h : i.Recoded K k) :
    Agree (Recoded K) (i.renameTable old new) (k.renameTable old new') := by
  cases h
  case column ht hc ha => exact .ok (.column (Coding.rooted_replaceFirst ho hne ht hn) hc ha)
  case expr            => exact .error

theorem perMention {f g : Item → Except Failure Item} {mentions : List Nat}
    (hf : ∀ i k, Recoded K i k → Agree (Recoded K) (f i) (g k)) (h : i.Recoded K k) :
    Agree (Recoded K) (perMention mentions f i) (perMention mentions g k) := by
  rw [Sql.perMention, Sql.perMention, h.part_eq]
  have hs (n : Nat) : Forall₂ (· = ·) (List.replicate n ()) (List.replicate n ()) :=
    forall₂_refl _
  exact Agree.foldlM (hs _) h fun i k _ _ h _ => hf i k h

theorem parts_eq (h : Forall₂ (Recoded K) is ks) : is.map Item.part = ks.map Item.part :=
  map_eq_map_of_forall₂ h fun _ _ h => h.part_eq

include ho hne hn in
theorem renameTables (h : Forall₂ (Recoded K) is ks) :
    Agree (Forall₂ (Recoded K)) (renameTables old new is) (renameTables old new' ks) := by
  rw [Sql.renameTables, Sql.renameTables, parts_eq h]
  exact Agree.mapM h fun i k h => h.perMention fun i k h => h.renameTable ho hne hn

theorem bare (h : i.Recoded K k) : i.bare.Parallel (Recoded K) k.bare := by
  cases h
  case column a ht hn _ =>
    cases a
    case none   => exact parallel_throw
    case some s => exact .same_bind fun p => parallel_pure (.column ht hn (by simp))
  case expr => exact parallel_throw

end Recoded

mutual

theorem Recoded.allParts : (i : Item) → {k : Item} → i.Recoded K k → i.parts = k.parts
  | .column .., k, h => by
    cases h
    rfl
  | .expr p args .., k, h => by
    cases h
    case expr hargs _ _ _ => rw [parts, parts, Recoded.partsOfList args hargs]

theorem Recoded.partsOfList : (is : List Item) → {ks : List Item} →
    Forall₂ (Recoded K) is ks → parts.partsOfList is = parts.partsOfList ks
  | [], ks, h => by
    cases h
    rfl
  | i :: is, ks, h => by
    cases h
    case cons hi his =>
      rw [parts.partsOfList, parts.partsOfList, Recoded.allParts i hi, Recoded.partsOfList is his]

end

mutual

theorem Recoded.renumber (f : Nat → Nat) : (i : Item) → {k : Item} → i.Recoded K k →
    (i.renumber f).Recoded K (k.renumber f)
  | .column .., k, h => by
    cases h
    case column ht hn ha => exact .column ht hn ha
  | .expr p args .., k, h => by
    cases h
    case expr hargs ha hb hf => exact .expr (Recoded.renumberList f args hargs) ha hb hf

theorem Recoded.renumberList (f : Nat → Nat) : (is : List Item) → {ks : List Item} →
    Forall₂ (Recoded K) is ks →
      Forall₂ (Recoded K) (renumber.renumberList f is) (renumber.renumberList f ks)
  | [], ks, h => by
    cases h
    exact .nil
  | i :: is, ks, h => by
    cases h
    case cons hi his => exact .cons (Recoded.renumber f i hi) (Recoded.renumberList f is his)

end

theorem recoded_create {t t' n n' a : String} (ht : K.Rooted t t') (hn : K.Single n n')
    (ha : Unquoted a) : (create t n a).Parallel (Recoded K) (create t' n' a) :=
  .same_bind fun _ => parallel_pure (.column ht hn fun _ hs => Option.some.inj hs ▸ ha)

theorem Recoded.copies {is ks : List Item} (h : Forall₂ (Recoded K) is ks) :
    (copies is).Parallel (Forall₂ (Recoded K)) (copies ks) := by
  have hp : is.flatMap parts = ks.flatMap parts := by
    rw [flatMap_def, flatMap_def,
      map_eq_map_of_forall₂ h fun i k h => Recoded.allParts i h]
  rw [Item.copies, Item.copies, hp]
  refine .same_bind fun n => parallel_pure ?_
  rw [forall₂_map_left_iff, forall₂_map_right_iff]
  exact h.imp fun i k h => Recoded.renumber _ i h

mutual

theorem Recoded.replaceTable {old new : String} (ho : Unquoted old) (hn : Unquoted new) :
    (i : Item) → {k : Item} → i.Recoded K k →
      (i.replaceTable old new).Recoded K (k.replaceTable old new)
  | .column p t n a, k, h => by
    cases h
    case column t' n' ht hc ha =>
      refine .column ?_ hc ha
      have heq : (t == old) = (t' == old) := ht.beq_eq (Coding.led_self ho)
      rw [heq]
      split
      · exact Coding.rooted_self hn
      · exact ht
  | .expr p args .., k, h => by
    cases h
    case expr hargs ha hb hf => exact .expr (Recoded.replaceTables ho hn args hargs) ha hb hf

theorem Recoded.replaceTables {old new : String} (ho : Unquoted old) (hn : Unquoted new) :
    (is : List Item) → {ks : List Item} → Forall₂ (Recoded K) is ks →
      Forall₂ (Recoded K) (replaceTable.replaceTables old new is)
        (replaceTable.replaceTables old new ks)
  | [], ks, h => by
    cases h
    exact .nil
  | i :: is, ks, h => by
    cases h
    case cons hi his =>
      exact .cons (Recoded.replaceTable ho hn i hi) (Recoded.replaceTables ho hn is his)

end

end Item

namespace Cond

structure Recoded (K : Coding ι) (c d : Cond) : Prop where
  part : c.part = d.part
  lhs  : c.lhs.Recoded K d.lhs
  rhs  : c.rhs.Recoded K d.rhs

namespace Recoded

variable {c d : Cond} {cs ds : List Cond}

theorem text (h : c.Recoded K d) : Agree K.Led c.text d.text := by
  refine (Item.Recoded.text _ h.lhs).bind fun l l' hl => ?_
  refine (Item.Recoded.text _ h.rhs).bind fun r r' hr => .ok ?_
  simp only [String.append_assoc]
  have hright : K.Led (" = " ++ (r ++ ")")) (" = " ++ (r' ++ ")")) :=
    Coding.led_word (by decide) (by decide) (Coding.like_append hr (Coding.led_self (by decide)))
  exact Coding.led_word (by decide) (by decide) (Coding.like_append hl hright)

theorem isTrivial (h : c.Recoded K d) : Agree (· = ·) c.isTrivial d.isTrivial :=
  (Item.Recoded.text _ h.lhs).bind fun _ _ hl => (Item.Recoded.text _ h.rhs).bind fun _ _ hr =>
    .ok (hl.beq_eq hr)

theorem texts (h : Forall₂ (Recoded K) cs ds) :
    Agree (Forall₂ K.Led) (cs.mapM Cond.text) (ds.mapM Cond.text) :=
  Agree.mapM h fun _ _ h => h.text

theorem sides_eq (h : Forall₂ (Recoded K) cs ds) : sides cs = sides ds := by
  unfold sides
  rw [flatMap_def, flatMap_def]
  exact congrArg _ (map_eq_map_of_forall₂ h fun _ _ h => by rw [h.lhs.part_eq, h.rhs.part_eq])

include ho hne hn in
theorem renameTables (h : Forall₂ (Recoded K) cs ds) :
    Agree (Forall₂ (Recoded K)) (renameTables old new cs) (renameTables old new' ds) := by
  rw [Cond.renameTables, Cond.renameTables, sides_eq h]
  have side {i k : Item} (h : i.Recoded K k) :
      Agree (Item.Recoded K) (perMention (sides ds) (Item.renameTable old new) i)
        (perMention (sides ds) (Item.renameTable old new') k) :=
    h.perMention fun i k h => h.renameTable ho hne hn
  exact Agree.mapM h fun c d h => (side h.lhs).bind fun _ _ hl => (side h.rhs).bind fun _ _ hr =>
    .ok ⟨h.part, hl, hr⟩

theorem replaceTable {old new : String} (ho : Unquoted old) (hn : Unquoted new)
    (h : c.Recoded K d) : (c.replaceTable old new).Recoded K (d.replaceTable old new) where
  part := h.part
  lhs  := Item.Recoded.replaceTable ho hn _ h.lhs
  rhs  := Item.Recoded.replaceTable ho hn _ h.rhs

end Recoded

end Cond

namespace Source

structure Recoded (K : Coding ι) (s s' : Source) : Prop where
  part   : s.part = s'.part
  table  : K.Rooted s.table s'.table
  asName : K.Rooted s.asName s'.asName

namespace Recoded

variable {s s' : Source}

theorem text (h : s.Recoded K s') : K.Led s.text s'.text := by
  rw [Source.text, Source.text, h.asName.isEmpty_eq, h.table.isEmpty_eq, h.table.beq_eq h.asName]
  split
  · exact h.table.led
  · split
    · exact Coding.led_self (by decide)
    · refine Coding.led_append h.table.led ?_
      rw [aliasText, aliasText, h.asName.isEmpty_eq]
      split
      · exact Coding.led_self (by decide)
      · exact Coding.led_word (by decide) (by decide) h.asName.led.like

include ho hne hn in
theorem renameAlias (h : s.Recoded K s') :
    (s.renameAlias old new).Recoded K (s'.renameAlias old new') where
  part   := h.part
  table  := h.table
  asName := Coding.rooted_replaceFirst ho hne h.asName hn

theorem replaceTable {old new : String} (ho : Unquoted old) (hn : Unquoted new)
    (h : s.Recoded K s') : (s.replaceTable old new).Recoded K (s'.replaceTable old new) := by
  rw [Source.replaceTable, Source.replaceTable, h.table.beq_eq (Coding.led_self ho)]
  split
  · exact ⟨h.part, Coding.rooted_self hn, h.asName⟩
  · exact h

end Recoded

-- The table of a source is not mixed up with codes.
structure Stored (K : Coding ι) (s : Source) : Prop where
  table  : K.Avoids s.table
  asName : Unquoted s.asName

theorem Stored.recoded {s : Source} (h : s.Stored K) : s.Recoded K s where
  part   := rfl
  table  := Coding.rooted_self h.table.unquoted
  asName := Coding.rooted_self h.asName

theorem Stored.replaceTable {s : Source} {new : String} (old : String) (h : s.Stored K)
    (hn : K.Avoids new) : (s.replaceTable old new).Stored K := by
  unfold Source.replaceTable
  split
  · exact ⟨hn, h.asName⟩
  · exact h

end Source

namespace Join

structure Recoded (K : Coding ι) (j k : Join) : Prop where
  source : j.toSource.Recoded K k.toSource
  conds  : Forall₂ (Cond.Recoded K) j.conds k.conds

namespace Recoded

variable {j j' k k' : Join}

theorem condsText (h : j.Recoded K k) : Agree K.Like j.condsText k.condsText :=
  (Cond.Recoded.texts h.conds).bind fun _ _ hs =>
    .ok (Coding.like_intercalate (by decide) (by decide) (hs.imp fun _ _ h => h.like))

theorem text (h : j.Recoded K k) : Agree K.Like j.text k.text := by
  refine h.condsText.bind fun s s' hs => .ok ?_
  rw [String.append_assoc, String.append_assoc]
  exact Coding.like_append h.source.text.like (Coding.led_word (by decide) (by decide) hs)

theorem isTrivial (h : j.Recoded K k) : Agree (· = ·) j.isTrivial k.isTrivial :=
  Agree.allM h.conds fun _ _ h => h.isTrivial

theorem alike (h : j.Recoded K k) (h' : j'.Recoded K k') :
    Agree (· = ·) (j.alike j') (k.alike k') := by
  have htable : (j.table != j'.table) = (k.table != k'.table) := by
    rw [bne, bne, h.source.table.beq_eq h'.source.table]
  rw [Join.alike, Join.alike, htable, h.conds.length_eq, h'.conds.length_eq]
  split
  · exact .ok rfl
  · refine Agree.allM (rel_zip h.conds h'.conds) fun (c, d) (c', d') ⟨hc, hd⟩ => ?_
    refine hc.lhs.name.bind fun n n' hn => hd.lhs.name.bind fun m m' hm => ?_
    rw [bne, bne, hn.beq_eq hm]
    split
    · exact .ok rfl
    · exact (Item.Recoded.text _ hc.rhs).bind fun _ _ hr =>
        (Item.Recoded.text _ hd.rhs).bind fun _ _ hr' => .ok (hr.beq_eq hr')

include ho hne hn in
theorem renameAlias (h : j.Recoded K k) :
    Agree (Recoded K) (j.renameAlias old new) (k.renameAlias old new') :=
  (Cond.Recoded.renameTables ho hne hn h.conds).bind fun _ _ hc =>
    .ok ⟨h.source.renameAlias ho hne hn, hc⟩

theorem replaceTable {old new : String} (ho : Unquoted old) (hn : Unquoted new)
    (h : j.Recoded K k) : (j.replaceTable old new).Recoded K (k.replaceTable old new) where
  source := h.source.replaceTable ho hn
  conds  := by
    rw [Join.replaceTable, Join.replaceTable, forall₂_map_left_iff, forall₂_map_right_iff]
    exact h.conds.imp fun _ _ h => h.replaceTable ho hn

end Recoded

def PairRecoded (K : Coding ι) (p q : Item × Item) : Prop :=
  p.1.Recoded K q.1 ∧ p.2.Recoded K q.2

theorem recoded_create {t t' a a' : String} {ps qs : List (Item × Item)} (ht : K.Rooted t t')
    (ha : K.Rooted a a') (h : Forall₂ (PairRecoded K) ps qs) :
    (create t a ps).Parallel (Recoded K) (create t' a' qs) := by
  refine .bind (R := Forall₂ (Cond.Recoded K)) (Parallel.mapM h fun p q h => ?_) ?_
  · exact .same_bind fun n => parallel_pure ⟨rfl, h.1, h.2⟩
  · exact fun cs ds hcs => .same_bind fun n => parallel_pure ⟨⟨rfl, ht, ha⟩, hcs⟩

end Join

inductive Grouping.Recoded (K : Coding ι) : Grouping → Grouping → Prop
  | by {is ks} : Forall₂ (Item.Recoded K) is ks → Recoded K (.by is) (.by ks)
  | whole : Recoded K .whole .whole

theorem Grouping.Recoded.columns {g g' : Grouping} (h : g.Recoded K g') :
    Forall₂ (Item.Recoded K) g.columns g'.columns := by
  obtain h | _ := h
  · exact h
  · exact .nil

theorem Grouping.Recoded.groupsRows_eq {g g' : Grouping} (h : g.Recoded K g') :
    g.groupsRows = g'.groupsRows := by
  obtain h | _ := h
  · exact congrArg (! ·) (isEmpty_eq_of_forall₂ h)
  · rfl

theorem like_joinTexts {sep : String} {ss ss' : List String} (hs : Unquoted sep) (hn : sep ≠ "")
    (h : Forall₂ K.Like ss ss') : K.Like (joinTexts sep ss) (joinTexts sep ss') := by
  have aux {acc acc' : String} (hacc : K.Like acc acc') :
      K.Like (ss.foldl (fun acc t => if acc.isEmpty then t else acc ++ sep ++ t) acc)
        (ss'.foldl (fun acc t => if acc.isEmpty then t else acc ++ sep ++ t) acc') := by
    induction h generalizing acc acc'
    case nil => exact hacc
    case cons t t' ts ts' ht _ ih =>
      refine ih ?_
      dsimp only
      rw [hacc.isEmpty_eq]
      split
      · exact ht
      · rw [String.append_assoc, String.append_assoc]
        exact Coding.like_append hacc (Coding.led_word hs hn ht)
  exact aux (Coding.led_self (by decide)).like

namespace Body

structure Recoded (K : Coding ι) (b b' : Body) : Prop where
  domain   : Forall₂ (Item.Recoded K) b.domain b'.domain
  codomain : Forall₂ (Item.Recoded K) b.codomain b'.codomain
  source   : b.source = b'.source
  stored   : ∀ s ∈ b.source, s.Stored K
  joins    : Forall₂ (Join.Recoded K) b.joins b'.joins
  wheres   : Forall₂ (Cond.Recoded K) b.wheres b'.wheres
  groups   : b.groups.Recoded K b'.groups
  distinct : b.distinct = b'.distinct
  orderBy  : b.orderBy = b'.orderBy
  orderDir : b.orderDir = b'.orderDir
  key      : ∀ s ∈ b.orderBy, Unquoted s

namespace Recoded

variable {b b' : Body}

theorem items (h : b.Recoded K b') : Forall₂ (Item.Recoded K) b.items b'.items :=
  rel_append h.domain h.codomain

theorem addJoin {j j' : Join} (h : b.Recoded K b') (hj : j.Recoded K j') :
    Agree (Recoded K) (b.addJoin j) (b'.addJoin j') :=
  (Agree.anyM h.joins fun _ _ h => h.alike hj).bind_bool (.ok h)
    (.ok { h with joins := rel_append h.joins (.cons hj .nil) })

theorem addWhere {c c' : Cond} (h : b.Recoded K b') (hc : c.Recoded K c') :
    Agree (Recoded K) (b.addWhere c) (b'.addWhere c') := by
  refine (Agree.anyM h.wheres fun d d' h => ?_).bind_bool (.ok h)
    (.ok { h with wheres := rel_append h.wheres (.cons hc .nil) })
  exact h.text.bind fun _ _ hd => hc.text.bind fun _ _ hc => .ok (hd.beq_eq hc)

theorem tidy (h : b.Recoded K b') : Agree (Recoded K) b.tidy b'.tidy :=
  (Agree.foldlM h.joins { h with joins := .nil, wheres := .nil } fun _ _ _ _ h hj =>
    h.addJoin hj).bind fun _ _ hb => Agree.foldlM h.wheres hb fun _ _ _ _ h hc => h.addWhere hc

theorem keepJoin {js js' : List Join} {j j' : Join} (h : Forall₂ (Join.Recoded K) js js')
    (hj : j.Recoded K j') :
    Agree (Forall₂ (Join.Recoded K)) (keepJoin js j) (keepJoin js' j') := by
  have hnews : Agree (· = ·)
      (js.allM fun k => do
        if ← j.alike k then return false
        return (← j.condsText) != (← k.condsText))
      (js'.allM fun k => do
        if ← j'.alike k then return false
        return (← j'.condsText) != (← k.condsText)) := by
    refine Agree.allM h fun k k' hk => (hj.alike hk).bind_bool (.ok rfl) ?_
    exact hj.condsText.bind fun _ _ hs => hk.condsText.bind fun _ _ ht =>
      .ok (congrArg (! ·) (hs.beq_eq ht))
  refine hj.isTrivial.bind_bool (.ok h) (hnews.bind_bool (.ok ?_) (.ok h))
  exact rel_append h (.cons hj .nil)

theorem replaceSide {old new : String} {i k : Item} (ho : Unquoted old) (hn : Unquoted new)
    (h : i.Recoded K k) : Agree (Item.Recoded K) (replaceSide old new i) (replaceSide old new k) := by
  refine h.table.bind fun t t' ht => ?_
  rw [ht.beq_eq (Coding.led_self ho)]
  split
  · exact .ok (Item.Recoded.replaceTable ho hn i h)
  · exact .ok h

theorem replaceTable {old new : String} (ho : Unquoted old) (hn : K.Avoids new)
    (h : b.Recoded K b') : Agree (Recoded K) (b.replaceTable old new) (b'.replaceTable old new) := by
  have items {is ks : List Item} (h : Forall₂ (Item.Recoded K) is ks) :
      Forall₂ (Item.Recoded K) (is.map (Item.replaceTable old new))
        (ks.map (Item.replaceTable old new)) := by
    rw [forall₂_map_left_iff, forall₂_map_right_iff]
    exact h.imp fun i _ h => Item.Recoded.replaceTable ho hn.unquoted i h
  have hjoins : Forall₂ (Join.Recoded K) (b.joins.map (Join.replaceTable old new))
      (b'.joins.map (Join.replaceTable old new)) := by
    rw [forall₂_map_left_iff, forall₂_map_right_iff]
    exact h.joins.imp fun _ _ h => h.replaceTable ho hn.unquoted
  have side {i k : Item} (h : i.Recoded K k) := replaceSide ho hn.unquoted h
  rw [Body.replaceTable, Body.replaceTable, ← h.source]
  cases hs : b.source
  case none => exact .error
  case some s =>
    refine (Agree.foldlM hjoins .nil fun _ _ _ _ h hj => keepJoin h hj).bind fun _ _ hjs => ?_
    refine .bind (R := Forall₂ (Cond.Recoded K)) (Agree.mapM h.wheres fun c d h => ?_) ?_
    · exact (side h.lhs).bind fun _ _ hl => (side h.rhs).bind fun _ _ hr => .ok ⟨h.part, hl, hr⟩
    · intro ws ws' hws
      extract_lets make make'
      have hmake {g g' : Grouping} (hg : g.Recoded K g') :
          Agree (Recoded K) (make g) (make' g') :=
        .ok { h with
          domain := items h.domain, codomain := items h.codomain, source := rfl
          stored := fun t ht => Option.some.inj ht ▸ (h.stored s hs).replaceTable old hn
          joins := hjs, wheres := hws, groups := hg }
      have hg := h.groups
      generalize b.groups = g, b'.groups = g' at hg
      obtain hg | _ := hg
      · exact ((Agree.mapM hg fun _ _ h => side h).map fun _ _ h => .by h).bind fun _ _ => hmake
      · exact hmake .whole

theorem columnsText (h : b.Recoded K b') : Agree K.Like b.columnsText b'.columnsText :=
  (Agree.mapM h.items fun i _ h => Item.Recoded.text i h).bind fun _ _ hs =>
    .ok (like_joinTexts (by decide) (by decide) hs)

theorem joinsText (h : b.Recoded K b') : Agree K.Led b.joinsText b'.joinsText := by
  refine .bind (R := Forall₂ K.Led) (Agree.mapM h.joins fun j k h => ?_) ?_
  · exact h.text.bind fun _ _ hs => .ok (Coding.led_word (by decide) (by decide) hs)
  · exact fun _ _ hs => .ok (Coding.led_join hs)

theorem wheresText (h : b.Recoded K b') : Agree K.Led b.wheresText b'.wheresText := by
  refine (Cond.Recoded.texts h.wheres).bind fun ss ss' hs => ?_
  have hi : K.Like (" AND ".intercalate ss) (" AND ".intercalate ss') :=
    Coding.like_intercalate (by decide) (by decide) (hs.imp fun _ _ h => h.like)
  cases hs
  case nil  => exact .ok (Coding.led_self (by decide : Unquoted ""))
  case cons => exact .ok (Coding.led_word (by decide) (by decide) hi)

theorem groupsText (h : b.Recoded K b') : Agree K.Led b.groupsText b'.groupsText := by
  refine (Agree.mapM h.groups.columns fun i _ h => Item.Recoded.text i h).bind fun ss ss' hs => ?_
  have hi : K.Like (", ".intercalate ss) (", ".intercalate ss') :=
    Coding.like_intercalate (by decide) (by decide) hs
  cases hs
  case nil  => exact .ok (Coding.led_self (by decide : Unquoted ""))
  case cons => exact .ok (Coding.led_word (by decide) (by decide) hi)

theorem unquoted_distinctText (b : Body) : Unquoted b.distinctText := by
  unfold Body.distinctText
  split <;> decide

theorem unquoted_directionText (b : Body) : Unquoted b.directionText := by
  unfold Body.directionText
  split <;> decide

theorem like_clauses {front cols cols' js js' ws ws' gs gs' mid mid' last : String}
    (hf : Unquoted front) (hcols : K.Like cols cols') (hmid : K.Led mid mid') (hjs : K.Led js js')
    (hws : K.Led ws ws') (hgs : K.Led gs gs') (hl : Unquoted last) :
    K.Like (front ++ (cols ++ (mid ++ (js ++ (ws ++ (gs ++ last))))))
      (front ++ (cols' ++ (mid' ++ (js' ++ (ws' ++ (gs' ++ last)))))) :=
  Coding.like_word hf (Coding.like_append hcols (Coding.led_append hmid (Coding.led_append hjs
    (Coding.led_append hws (Coding.led_append hgs (Coding.led_self hl))))))

theorem led_from {s : String} (h : K.Led s s) :
    K.Led (if s.isEmpty then "" else "\nFROM " ++ s) (if s.isEmpty then "" else "\nFROM " ++ s) := by
  split
  · exact Coding.led_self (by decide)
  · exact Coding.led_word (by decide) (by decide) h.like

theorem distinctText_eq (h : b.Recoded K b') : b'.distinctText = b.distinctText := by
  rw [Body.distinctText, Body.distinctText, h.distinct]

theorem directionText_eq (h : b.Recoded K b') : b'.directionText = b.directionText := by
  rw [Body.directionText, Body.directionText, h.orderDir]

theorem unquoted_order (h : b.Recoded K b') (last : String) (hl : Unquoted last) :
    Unquoted (match b.orderBy with
      | none     => ""
      | some key => "\nORDER BY " ++ key ++ " " ++ b.directionText ++ last) := by
  cases ho : b.orderBy
  case none => exact (by decide : Unquoted "")
  case some key =>
    simp only [unquoted_append]
    exact ⟨⟨⟨⟨by decide, h.key key ho⟩, by decide⟩, unquoted_directionText b⟩, hl⟩

theorem text (h : b.Recoded K b') : Agree K.Like b.text b'.text := by
  refine h.columnsText.bind fun cols cols' hcols => h.joinsText.bind fun js js' hjs => ?_
  extract_lets source clause order source' clause' order'
  have hsource : K.Led source source := by
    unfold source
    cases hs : b.source
    case none   => exact Coding.led_self (by decide)
    case some s => exact (h.stored s hs).recoded.text
  have hclause : clause' = clause := by
    simp only [clause, clause', source, source', h.source]
  have horder : order' = order := by
    simp only [order, order', h.directionText_eq, h.orderBy]
  refine h.wheresText.bind fun ws ws' hws => h.groupsText.bind fun gs gs' hgs => .ok ?_
  have hfront : Unquoted ("SELECT " ++ b.distinctText) :=
    unquoted_append.mpr ⟨by decide, unquoted_distinctText b⟩
  have hlast : Unquoted (order ++ "\n") :=
    unquoted_append.mpr ⟨h.unquoted_order _ (by decide), by decide⟩
  rw [hclause, horder, h.distinctText_eq]
  have := like_clauses hfront hcols (led_from hsource) hjs hws hgs hlast
  simpa only [String.append_assoc] using this

end Recoded

end Body

structure Frozen.Recoded (K : Coding ι) (f f' : Frozen) : Prop where
  body   : f.toBody.Recoded K f'.toBody
  table  : f.table = f'.table
  stored : K.Avoids f.table

structure Query.Recoded (K : Coding ι) (q q' : Query) : Prop where
  body   : q.toBody.Recoded K q'.toBody
  part   : q.part = q'.part
  frozen : Forall₂ (Frozen.Recoded K) q.frozen q'.frozen

theorem Item.Recoded.applyNames {named : List (Nat × String)} {i k : Item}
    (hn : ∀ p ∈ named, Unquoted p.2) (h : i.Recoded K k) :
    (applyNames named i).Recoded K (applyNames named k) := by
  rw [Sql.applyNames, Sql.applyNames, ← h.part_eq]
  cases hl : named.lookup i.part
  case none   => exact h
  case some a =>
    obtain ⟨l, l', rfl, _⟩ := lookup_eq_some_iff.mp hl
    exact h.withAlias (hn (i.part, a) (by simp))

theorem columnNames_agree {is ks : List Item} {named : List (Nat × String)} (n : Nat)
    (h : Forall₂ (Item.Recoded K) is ks) (hn : ∀ p ∈ named, Unquoted p.2) :
    Agree (fun names names' => names = names' ∧ ∀ p ∈ names, Unquoted p.2)
      (columnNames n is named) (columnNames n ks named) := by
  induction h generalizing n named
  case nil => exact .ok ⟨rfl, hn⟩
  case cons i k is ks h _ ih =>
    refine h.asName.bind fun a _ ha => ?_
    rw [← ha.1, ← h.part_eq]
    split
    · refine ih _ fun p hp => ?_
      obtain hp | hp := mem_append.mp hp
      · exact hn p hp
      · rw [mem_singleton.mp hp]
        exact unquoted_append.mpr ⟨by decide, unquoted_toString n⟩
    · exact ih _ hn

namespace Query

namespace Recoded

variable {q q' : Query}

theorem freeze (hK : ∀ n : Nat, K.Avoids ("tmp" ++ toString n)) (h : q.Recoded K q') :
    q.freeze.Parallel (Recoded K) q'.freeze := by
  refine .same_bind fun s => .same_bind fun _ => ?_
  have htable := hK s.tables
  generalize "tmp" ++ toString s.tables = table at htable ⊢
  refine (parallel_ofExcept (columnNames_agree 0 h.body.items (by simp))).bind fun named _ hn => ?_
  obtain ⟨rfl, hn⟩ := hn
  have names {is ks : List Item} (h : Forall₂ (Item.Recoded K) is ks) :
      Forall₂ (Item.Recoded K) (is.map (applyNames named)) (ks.map (applyNames named)) := by
    rw [forall₂_map_left_iff, forall₂_map_right_iff]
    exact h.imp fun _ _ h => h.applyNames hn
  have readBack {is ks : List Item} (h : Forall₂ (Item.Recoded K) is ks) :
      (is.mapM fun i => Item.create table (i.asName?.getD "") "").Parallel
        (Forall₂ (Item.Recoded K))
        (ks.mapM fun i => Item.create table (i.asName?.getD "") "") := by
    refine Parallel.mapM h fun i k h => ?_
    rw [← h.asName?_eq]
    exact Item.recoded_create (Coding.rooted_self htable.unquoted)
      (Coding.single_self h.unquoted_getD) (by decide)
  refine .same_bind fun n => (readBack (names h.body.domain)).bind fun dom dom' hdom => ?_
  refine (readBack (names h.body.codomain)).bind fun cod cod' hcod => parallel_pure ?_
  have hkept : Frozen.Recoded K
      { q.toBody with
        domain := q.domain.map (applyNames named), codomain := q.codomain.map (applyNames named),
        orderBy := none, orderDir := "", table }
      { q'.toBody with
        domain := q'.domain.map (applyNames named), codomain := q'.codomain.map (applyNames named),
        orderBy := none, orderDir := "", table } := {
    body := { h.body with
      domain := names h.body.domain, codomain := names h.body.codomain, orderBy := rfl,
      orderDir := rfl, key := by simp }
    table := rfl
    stored := htable }
  exact {
    body := { h.body with
      domain := hdom, codomain := hcod, source := rfl
      stored := fun s hs => Option.some.inj hs ▸ ⟨htable, (by decide : Unquoted "")⟩
      joins := .nil, wheres := .nil, groups := .by .nil }
    part := h.part
    frozen := rel_append h.frozen (.cons hkept .nil) }

end Recoded

theorem recoded_create {b b' : Body} {fs fs' : List Frozen} (h : b.Recoded K b')
    (hf : Forall₂ (Frozen.Recoded K) fs fs') :
    (create b fs).Parallel (Recoded K) (create b' fs') :=
  (parallel_ofExcept h.tidy).bind fun _ _ hb => .same_bind fun _ => parallel_pure ⟨hb, rfl, hf⟩

structure Dedup.Recoded (K : Coding ι) (d d' : Dedup) : Prop where
  kept  : Forall₂ (Frozen.Recoded K) d.kept d'.kept
  texts : Forall₂ K.Like d.texts d'.texts
  main  : d.main.Recoded K d'.main

theorem dedupFrom_agree {all all' : List Frozen} (ha : Forall₂ (Frozen.Recoded K) all all')
    (n : Nat) {fs fs' : List Frozen} {d d' : Dedup} (h : Forall₂ (Frozen.Recoded K) fs fs')
    (hd : d.Recoded K d') :
    Agree (Dedup.Recoded K) (dedupFrom all n fs d) (dedupFrom all' n fs' d') := by
  induction n generalizing fs fs' d d'
  case zero => cases h <;> exact .ok hd
  case succ n ih =>
    cases h
    case nil => exact .ok hd
    case cons f f' rest rest' hf hrest =>
      rw [dedupFrom, dedupFrom]
      refine hf.body.text.bind fun s s' hs => ?_
      rw [findIdx?_eq hd.texts fun _ _ h => h.beq_eq hs]
      cases d'.texts.findIdx? (· == s')
      case none =>
        exact ih hrest { hd with
          kept := rel_append hd.kept (.cons hf .nil)
          texts := rel_append hd.texts (.cons hs .nil) }
      case some j =>
        have hnew : (all[j]?.map (·.table)).getD "" = (all'[j]?.map (·.table)).getD "" ∧
            K.Avoids ((all'[j]?.map (·.table)).getD "") := by
          have hj := rel_getElem? ha j
          generalize all[j]? = g, all'[j]? = g' at hj
          cases hj
          case none    => exact ⟨rfl, Coding.avoids_empty⟩
          case some hg => exact ⟨hg.table, (hg.table ▸ hg.stored : K.Avoids (Frozen.table _))⟩
        have replaced {b b' : Body} (h : b.Recoded K b') :=
          h.replaceTable hf.stored.unquoted hnew.2
        dsimp only
        rw [hnew.1, ← hf.table]
        refine .bind (R := Forall₂ (Frozen.Recoded K)) (Agree.mapM hrest fun g g' h => ?_) ?_
        · exact (replaced h.body).bind fun _ _ hb => .ok ⟨hb, h.table, h.stored⟩
        · exact fun _ _ hrest => (replaced hd.main).bind fun _ _ hm => ih hrest { hd with main := hm }

theorem Recoded.dedup {q q' : Query} (h : q.Recoded K q') : Agree (Recoded K) q.dedup q'.dedup := by
  rw [Query.dedup, Query.dedup, h.frozen.length_eq]
  exact (dedupFrom_agree h.frozen _ h.frozen ⟨.nil, .nil, h.body⟩).bind fun _ _ hd =>
    .ok ⟨hd.main, h.part, hd.kept⟩

end Query

end Sql
end Inquiry
