import Mathlib
import Inquiry.Answer.Table
import Inquiry.Proofs.Run
import Inquiry.Proofs.Text.Marking
import Inquiry.Sql.Printing

/-!
The statements of a query can be told apart again: each clause is on lines of its own, none of them
empty, so that the empty lines are the ones between statements. Marking the names of temporary
tables leaves the lines where they are.
-/

namespace Inquiry

open List

namespace Text

def OneLine (s : String) : Prop :=
  '\n' ∉ s.toList

instance (s : String) : Decidable (OneLine s) :=
  inferInstanceAs (Decidable ('\n' ∉ s.toList))

-- A text of one or more lines, none of them empty.
inductive Lines : List Char → Prop
  | line {l} : l ≠ [] → '\n' ∉ l → Lines l
  | next {t l} : (Lines t) → l ≠ [] → '\n' ∉ l → Lines (t ++ '\n' :: l)

-- What can be written after lines.
def Continues (s : String) : Prop :=
  ∀ t, Lines t → Lines (t ++ s.toList)

variable {s t : String} {ss : List String} {cs ds : List Char}

@[simp]
theorem oneLine_append : OneLine (s ++ t) ↔ OneLine s ∧ OneLine t := by
  simp [OneLine]

theorem oneLine_join (h : ∀ s ∈ ss, OneLine s) : OneLine (String.join ss) := by
  simpa [OneLine] using h

theorem oneLine_intercalate {sep : String} (hs : OneLine sep) (h : ∀ s ∈ ss, OneLine s) :
    OneLine (sep.intercalate ss) := by
  induction ss
  case nil => exact not_mem_nil
  case cons s ss ih =>
    obtain ⟨h, hss⟩ := forall_mem_cons.mp h
    cases ss
    case nil => simpa [OneLine] using h
    case cons =>
      have ih := ih hss
      simp_all [OneLine, String.toList_intercalate]

section Quoting

theorem hexDigits_oneLine (k n : Nat) : '\n' ∉ hexDigits k n := by
  have hx : ∀ n < 16, hexDigits.hex n ≠ '\n' := by decide
  induction k generalizing n
  case zero => exact not_mem_nil
  case succ k ih =>
    have := hx (n % 16) (Nat.mod_lt n (by decide))
    simpa [hexDigits, ih] using this.symm

theorem quotedChar_oneLine {q : Char} (hq : q ≠ '\n') (c : Char) : OneLine (quotedChar q c) := by
  have hd := hexDigits_oneLine
  unfold quotedChar
  split_ifs <;> simp_all [OneLine] <;> grind

theorem quoted_oneLine (s : String) : OneLine (quoted s) := by
  have between {q : Char} (hq : q ≠ '\n') :
      OneLine (q.toString ++ String.join (s.toList.map (quotedChar q)) ++ q.toString) := by
    have ho : OneLine q.toString := by simpa [OneLine] using hq.symm
    refine oneLine_append.mpr ⟨oneLine_append.mpr ⟨ho, oneLine_join fun x hx => ?_⟩, ho⟩
    obtain ⟨c, _, rfl⟩ := mem_map.mp hx
    exact quotedChar_oneLine hq c
  refine between ?_
  split <;> decide

end Quoting

theorem fill_oneLine {args : List String} (hc : '\n' ∉ cs) (ha : ∀ a ∈ args, OneLine a)
    (h : fill cs args = .ok s) : OneLine s := by
  have filled {x : String} {y : Except Failure String} {s : String} (hx : OneLine x)
      (hy : ∀ t, y = .ok t → OneLine t) (h : (x ++ ·) <$> y = .ok s) : OneLine s := by
    obtain ⟨t, ht, rfl⟩ := map_eq_ok.mp h
    exact oneLine_append.mpr ⟨hx, hy t ht⟩
  fun_induction fill cs args generalizing s
  case case1 =>
    obtain rfl := Except.ok.inj h
    decide
  case case4 rest ih =>
    exact filled (by decide) (fun t ht => ih (by simp_all) ha ht) h
  case case7 rest a args _ ih =>
    obtain ⟨ha, has⟩ := forall_mem_cons.mp ha
    exact filled ha (fun t ht => ih (by simp_all) has ht) h
  case case8 c rest _ a args _ _ ih =>
    obtain ⟨_, has⟩ := forall_mem_cons.mp ha
    exact filled (quoted_oneLine a) (fun t ht => ih (by simp_all) has ht) h
  case case11 c rest args _ ih =>
    obtain ⟨hc, hrest⟩ := not_or.mp (mem_cons.not.mp hc)
    exact filled (by simpa [OneLine] using hc) (fun t ht => ih hrest ha ht) h
  all_goals cases h

section Lines

theorem Lines.append (h : Lines cs) (hd : '\n' ∉ ds) : Lines (cs ++ ds) := by
  cases h
  case line hn hl => exact .line (by simp [hn]) (by simp [hl, hd])
  case next t l ht hn hl =>
    have : Lines (t ++ '\n' :: (l ++ ds)) := .next ht (by simp [hn]) (by simp [hl, hd])
    simpa using this

theorem Lines.ne_nil (h : Lines cs) : cs ≠ [] := by
  cases h <;> simp_all

theorem continues_of_oneLine (h : OneLine s) : Continues s :=
  fun _ ht => ht.append h

-- A word that begins a new line.
def Opens (s : String) : Prop :=
  s.toList.head? = some '\n' ∧ s.toList.tail ≠ [] ∧ '\n' ∉ s.toList.tail

instance (s : String) : Decidable (Opens s) :=
  inferInstanceAs (Decidable (_ ∧ _ ∧ _))

theorem Opens.continues (h : Opens s) (ht : OneLine t) : Continues (s ++ t) := by
  intro u hu
  obtain ⟨hs, hn, hl⟩ := h
  obtain ⟨l, hl'⟩ := head?_eq_some_iff.mp hs
  rw [hl', tail_cons] at hn hl
  have : Lines (u ++ '\n' :: (l ++ t.toList)) :=
    .next hu (by simp [hn]) (by simpa [OneLine, hl] using ht)
  simpa [hl'] using this

theorem Continues.append (hs : Continues s) (ht : Continues t) : Continues (s ++ t) := by
  intro u hu
  have := ht _ (hs u hu)
  simpa using this

theorem continues_join (h : ∀ s ∈ ss, Continues s) : Continues (String.join ss) := by
  induction ss
  case nil => exact continues_of_oneLine (by decide)
  case cons s ss ih =>
    obtain ⟨hs, hss⟩ := forall_mem_cons.mp h
    exact String.join_cons ▸ hs.append (ih hss)

theorem Lines.dropWhile_reverse (h : Lines cs) (ds : List Char) :
    (cs.reverse ++ ds).dropWhile (· = '\n') = cs.reverse ++ ds := by
  have hl {l : List Char} (hn : l ≠ []) (hl : '\n' ∉ l) (ds : List Char) :
      (l.reverse ++ ds).dropWhile (· = '\n') = l.reverse ++ ds := by
    obtain ⟨c, l', hc⟩ := exists_cons_of_ne_nil (reverse_ne_nil_iff.mpr hn)
    have hne : c ≠ '\n' := by
      rintro rfl
      exact hl (mem_reverse.mp (hc ▸ mem_cons_self))
    simp [hc, hne]
  cases h
  case line hn hc      => exact hl hn hc ds
  case next t l _ hn hc => simpa using hl hn hc ('\n' :: (t.reverse ++ ds))

end Lines

section Marking

variable {word mark : List Char}

theorem Lines.markNumbered (h : Lines cs) (hn : word ≠ []) (hw : '\n' ∉ word)
    (hm : '\n' ∉ mark) : Lines (markNumbered word mark cs) := by
  have hl {l : List Char} (hl : '\n' ∉ l) : '\n' ∉ Text.markNumbered word mark l :=
    fun h => (mem_markNumbered h).elim hm hl
  have hne {l : List Char} (hl : l ≠ []) : Text.markNumbered word mark l ≠ [] := by
    cases l
    case nil  => exact absurd rfl hl
    case cons =>
      rw [Text.markNumbered]
      split <;> simp
  induction h
  case line hn hc         => exact .line (hne hn) (hl hc)
  case next _ hn' hc ih =>
    rw [markNumbered_append_cons hn hw rfl]
    exact .next ih (hne hn') (hl hc)

end Marking

end Text

namespace Answer

open Text

theorem splitBlankLines_append {cs : List Char} (h : Lines cs) (acc ds : List Char) :
    splitBlankLines acc (cs ++ ds) = splitBlankLines (cs.reverse ++ acc) ds := by
  have hl {l : List Char} (hl : '\n' ∉ l) (acc ds : List Char) :
      splitBlankLines acc (l ++ ds) = splitBlankLines (l.reverse ++ acc) ds := by
    induction l generalizing acc
    case nil => rfl
    case cons c l ih =>
      obtain ⟨hc, hl⟩ := not_or.mp (mem_cons.not.mp hl)
      rw [cons_append, splitBlankLines, ih hl]
      · simp
      · rintro _ rfl
        exact absurd rfl hc
  induction h generalizing acc ds
  case line hn hc         => exact hl hc acc ds
  case next t l _ hn hc ih =>
    obtain ⟨c, l, rfl⟩ := exists_cons_of_ne_nil hn
    have hc' : ∀ x, c :: (l ++ ds) ≠ '\n' :: x := by
      rintro x he
      exact hc ((List.cons.inj he).left ▸ mem_cons_self)
    have hnext (acc : List Char) : splitBlankLines acc ('\n' :: c :: (l ++ ds))
        = splitBlankLines ('\n' :: acc) (c :: (l ++ ds)) := by
      rw [splitBlankLines]
      exact fun x _ he => hc' x he
    rw [append_assoc, ih, cons_append, cons_append, hnext]
    have := hl hc ('\n' :: (t.reverse ++ acc)) ds
    simpa using this

theorem splitBlankLines_statements {ps : List (List Char)} {last : List Char}
    (hp : ∀ p ∈ ps, Lines p) (hl : Lines last) :
    splitBlankLines [] (ps.flatMap (· ++ ['\n', '\n']) ++ last) = ps ++ [last] := by
  induction ps
  case nil =>
    have := splitBlankLines_append hl [] []
    simpa [splitBlankLines] using this
  case cons p ps ih =>
    obtain ⟨hp, hps⟩ := forall_mem_cons.mp hp
    rw [flatMap_cons, append_assoc, append_assoc, splitBlankLines_append hp,
      append_nil]
    simp [splitBlankLines, ih hps]

theorem statements_join {ps : List String} (hp : ∀ p ∈ ps, Lines p.toList) (hn : ps ≠ []) :
    statements (String.join (ps.map (· ++ "\n\n"))) = ps := by
  obtain ⟨init, last, rfl⟩ := (eq_nil_or_concat' ps).resolve_left hn
  obtain ⟨hinit, hlast⟩ := forall_mem_append.mp hp
  replace hlast := hlast last (by simp)
  have ht : (String.join ((init ++ [last]).map (· ++ "\n\n"))).toList
      = (init.map String.toList).flatMap (· ++ ['\n', '\n']) ++ last.toList ++ ['\n', '\n'] := by
    simp [flatMap_map]
  have hl : ∀ p ∈ init.map String.toList, Lines p := by simpa using hinit
  have hrev : (init.map String.toList).flatMap (· ++ ['\n', '\n']) ++ last.toList
      = (((init.map String.toList).flatMap (· ++ ['\n', '\n']) ++ last.toList
        ++ ['\n', '\n']).reverse.dropWhile (· = '\n')).reverse := by
    have := hlast.dropWhile_reverse ((init.map String.toList).flatMap (· ++ ['\n', '\n'])).reverse
    simp only [reverse_append] at this ⊢
    simp [this]
  simp only [statements, ht]
  rw [← hrev, splitBlankLines_statements hl hlast]
  simp

end Answer

namespace Sql

open Text

variable {s : String} {d : Dialect}

namespace Item

def words : Item → List String
  | column _ t n a               => t :: n :: a.toList
  | expr _ args a before between => a :: before :: between :: wordsOfList args
where
  wordsOfList : List Item → List String
    | []      => []
    | i :: is => i.words ++ wordsOfList is

theorem oneLine_aliasText {a : String} (h : OneLine a) : OneLine (aliasText a) := by
  unfold aliasText
  split
  case isTrue  => decide
  case isFalse => exact oneLine_append.mpr ⟨by decide, h⟩

mutual

theorem text_oneLine : (i : Item) → {s : String} → (∀ w ∈ i.words, OneLine w) →
    i.text = .ok s → OneLine s
  | column _ t n a, s, hw, h => by
    obtain rfl := Except.ok.inj h
    obtain ⟨ht, hn, ha⟩ : OneLine t ∧ OneLine n ∧ ∀ x ∈ a, OneLine x := by simpa [words] using hw
    refine oneLine_append.mpr ⟨?_, ?_⟩
    · split
      case isTrue  => exact hn
      case isFalse => exact oneLine_append.mpr ⟨oneLine_append.mpr ⟨ht, by decide⟩, hn⟩
    · cases a
      case none   => exact (by decide : OneLine "")
      case some x => exact oneLine_aliasText (ha x rfl)
  | expr _ [] a before between, s, hw, h => by
    obtain rfl := Except.ok.inj h
    decide
  | expr _ (arg :: more) a before between, s, hw, h => by
    simp only [words, words.wordsOfList, forall_mem_cons, forall_mem_append] at hw
    obtain ⟨ha, hbefore, hbetween, harg, hmore⟩ := hw
    replace ha := oneLine_aliasText ha
    rw [text] at h
    split at h
    case isTrue =>
      obtain ⟨first, hfirst, h⟩ := bind_eq_ok.mp h
      obtain rfl := Except.ok.inj h
      exact oneLine_append.mpr ⟨text_oneLine arg harg hfirst, ha⟩
    case isFalse =>
      obtain ⟨first, hfirst, h⟩ := bind_eq_ok.mp h
      obtain ⟨others, hothers, h⟩ := bind_eq_ok.mp h
      obtain ⟨inner, hinner, h⟩ := bind_eq_ok.mp h
      obtain rfl := Except.ok.inj h
      have hargs : ∀ x ∈ first :: others, OneLine x :=
        forall_mem_cons.mpr ⟨text_oneLine arg harg hfirst, textsOf_oneLine more hmore hothers⟩
      simp only [oneLine_append]
      exact ⟨⟨⟨⟨hbefore, by decide⟩, fill_oneLine hbetween hargs hinner⟩, by decide⟩, ha⟩

theorem textsOf_oneLine : (is : List Item) → {ss : List String} →
    (∀ w ∈ words.wordsOfList is, OneLine w) → text.textsOf is = .ok ss → ∀ s ∈ ss, OneLine s
  | [], ss, _, h => by
    obtain rfl := Except.ok.inj h
    simp
  | i :: is, ss, hw, h => by
    obtain ⟨hi, his⟩ := forall_mem_append.mp hw
    obtain ⟨s, hs, h⟩ := bind_eq_ok.mp h
    obtain ⟨ss', hss, h⟩ := bind_eq_ok.mp h
    obtain rfl := Except.ok.inj h
    exact forall_mem_cons.mpr ⟨text_oneLine i hi hs, textsOf_oneLine is his hss⟩

end

end Item

def Cond.words (c : Cond) : List String :=
  c.lhs.words ++ c.rhs.words

def Source.words (s : Source) : List String :=
  [s.table, s.asName]

def Join.words (j : Join) : List String :=
  j.toSource.words ++ j.conds.flatMap Cond.words

theorem Cond.text_oneLine {c : Cond} (hw : ∀ w ∈ c.words, OneLine w) (h : c.text = .ok s) :
    OneLine s := by
  obtain ⟨hl, hr⟩ := forall_mem_append.mp hw
  obtain ⟨a, ha, h⟩ := bind_eq_ok.mp h
  obtain ⟨b, hb, h⟩ := bind_eq_ok.mp h
  obtain rfl := Except.ok.inj h
  simp only [oneLine_append]
  exact ⟨⟨⟨⟨by decide, c.lhs.text_oneLine hl ha⟩, by decide⟩, c.rhs.text_oneLine hr hb⟩, by decide⟩

theorem Source.text_oneLine {f : Source} (hw : ∀ w ∈ f.words, OneLine w) : OneLine f.text := by
  obtain ⟨ht, ha⟩ : OneLine f.table ∧ OneLine f.asName := by simpa [words] using hw
  unfold text
  split_ifs
  · exact ht
  · decide
  · exact oneLine_append.mpr ⟨ht, Item.oneLine_aliasText ha⟩

theorem forall_of_mapM {f : α → Except Failure β} {as : List α} {bs : List β} {P : β → Prop}
    (h : as.mapM f = .ok bs) (hf : ∀ a ∈ as, ∀ b, f a = .ok b → P b) : ∀ b ∈ bs, P b := by
  intro b hb
  obtain ⟨a, ha, hab⟩ := exists_of_mem_right (mapM_eq_ok.mp h) hb
  exact hf a ha b hab

theorem exists_map_eq {f : α → β} {P : α → Prop} {bs : List β} (h : ∀ b ∈ bs, ∃ a, b = f a ∧ P a) :
    ∃ as : List α, bs = as.map f ∧ ∀ a ∈ as, P a := by
  induction bs
  case nil => exact ⟨[], rfl, nofun⟩
  case cons b bs ih =>
    obtain ⟨⟨a, rfl, ha⟩, hbs⟩ := forall_mem_cons.mp h
    obtain ⟨as, rfl, has⟩ := ih hbs
    exact ⟨a :: as, rfl, forall_mem_cons.mpr ⟨ha, has⟩⟩

theorem Join.text_oneLine {j : Join} (hw : ∀ w ∈ j.words, OneLine w) (h : j.text = .ok s) :
    OneLine s := by
  obtain ⟨hs, hc⟩ := forall_mem_append.mp hw
  obtain ⟨_, hconds, h⟩ := bind_eq_ok.mp h
  obtain ⟨texts, htexts, hconds⟩ := bind_eq_ok.mp hconds
  obtain rfl := Except.ok.inj hconds
  obtain rfl := Except.ok.inj h
  have hcond : ∀ t ∈ texts, OneLine t := forall_of_mapM htexts fun c hm t ht =>
    c.text_oneLine (fun w hw => hc w (mem_flatMap_of_mem hm hw)) ht
  simp only [oneLine_append]
  exact ⟨⟨Source.text_oneLine hs, by decide⟩, oneLine_intercalate (by decide) hcond⟩

theorem oneLine_joinTexts {sep : String} {texts : List String} (hs : OneLine sep)
    (h : ∀ t ∈ texts, OneLine t) : OneLine (joinTexts sep texts) := by
  have fold {acc : String} (ha : OneLine acc) : OneLine (texts.foldl (fun acc t =>
      if acc.isEmpty then t else acc ++ sep ++ t) acc) := by
    induction texts generalizing acc
    case nil => exact ha
    case cons t texts ih =>
      obtain ⟨ht, htexts⟩ := forall_mem_cons.mp h
      refine ih htexts ?_
      dsimp only
      split
      case isTrue  => exact ht
      case isFalse => exact oneLine_append.mpr ⟨oneLine_append.mpr ⟨ha, hs⟩, ht⟩
  exact fold (by decide)

namespace Body

-- No text of a body has a line end.
structure Plain (b : Body) : Prop where
  items  : ∀ i ∈ b.items, ∀ w ∈ i.words, OneLine w
  source : ∀ f ∈ b.source, ∀ w ∈ f.words, OneLine w
  joins  : ∀ j ∈ b.joins, ∀ w ∈ j.words, OneLine w
  wheres : ∀ c ∈ b.wheres, ∀ w ∈ c.words, OneLine w
  groups : ∀ i ∈ b.groups.columns, ∀ w ∈ i.words, OneLine w
  order  : ∀ key ∈ b.orderBy, OneLine key

variable {b : Body}

theorem columnsText_oneLine (hb : b.Plain) (h : b.columnsText = .ok s) : OneLine s := by
  obtain ⟨texts, htexts, h⟩ := bind_eq_ok.mp h
  obtain rfl := Except.ok.inj h
  refine oneLine_joinTexts (by decide) ?_
  exact forall_of_mapM htexts fun i hi t ht => i.text_oneLine (hb.items i hi) ht

theorem joinsText_continues (hb : b.Plain) (h : b.joinsText = .ok s) : Continues s := by
  obtain ⟨texts, htexts, h⟩ := bind_eq_ok.mp h
  obtain rfl := Except.ok.inj h
  refine continues_join (forall_of_mapM htexts fun j hj t ht => ?_)
  obtain ⟨x, hx, ht⟩ := bind_eq_ok.mp ht
  obtain rfl := Except.ok.inj ht
  exact Opens.continues (by decide) (j.text_oneLine (hb.joins j hj) hx)

theorem wheresText_continues (hb : b.Plain) (h : b.wheresText = .ok s) : Continues s := by
  obtain ⟨texts, htexts, h⟩ := bind_eq_ok.mp h
  have hc : ∀ t ∈ texts, OneLine t :=
    forall_of_mapM htexts fun c hm t ht => c.text_oneLine (hb.wheres c hm) ht
  split at h
  case h_1 =>
    obtain rfl := Except.ok.inj h
    exact continues_of_oneLine (by decide)
  case h_2 =>
    obtain rfl := Except.ok.inj h
    exact Opens.continues (by decide) (oneLine_intercalate (by decide) hc)

theorem groupsText_continues (hb : b.Plain) (h : b.groupsText = .ok s) : Continues s := by
  obtain ⟨texts, htexts, h⟩ := bind_eq_ok.mp h
  have hc : ∀ t ∈ texts, OneLine t :=
    forall_of_mapM htexts fun i hi t ht => i.text_oneLine (hb.groups i hi) ht
  split at h
  case h_1 =>
    obtain rfl := Except.ok.inj h
    exact continues_of_oneLine (by decide)
  case h_2 =>
    obtain rfl := Except.ok.inj h
    exact Opens.continues (by decide) (oneLine_intercalate (by decide) hc)

theorem directionText_oneLine (b : Body) : OneLine b.directionText := by
  unfold directionText
  split <;> decide

theorem distinctText_oneLine (b : Body) : OneLine b.distinctText := by
  unfold distinctText
  split <;> decide

-- How a statement begins, and where it puts its rows.
def creation (d : Dialect) : Option String → String × String
  | none   => ("", "")
  | some t =>
    if d == .mySql then ("CREATE TEMPORARY TABLE " ++ t ++ "\n", "") else ("", " INTO " ++ t)

def fromText (f : Source) : String :=
  if f.text.isEmpty then "" else "\nFROM " ++ f.text

def orderText (b : Body) : String :=
  match b.orderBy with
  | none     => ""
  | some key => "\nORDER BY " ++ key ++ " " ++ b.directionText

-- The limit on the rows is written at the end or at the front.
def limits (d : Dialect) (b : Body) : String × String :=
  if b.orderBy.isNone then ("", "") else if d == .mySql then (" LIMIT 5", "") else ("", "TOP 5 ")

theorem statement_eq_ok {table : Option String} (h : b.statement d table = .ok s) :
    ∃ columns joins f wheres groups, b.columnsText = .ok columns ∧ b.joinsText = .ok joins ∧
      b.source = some f ∧ b.wheresText = .ok wheres ∧ b.groupsText = .ok groups ∧
      s = (creation d table).1 ++ "SELECT " ++ b.distinctText ++ (limits d b).2 ++ columns
        ++ (creation d table).2 ++ fromText f ++ joins ++ wheres ++ groups ++ b.orderText
        ++ (limits d b).1 ++ "\n\n" := by
  unfold statement at h
  obtain ⟨columns, hcolumns, h⟩ := bind_eq_ok.mp h
  obtain ⟨joins, hjoins, h⟩ := bind_eq_ok.mp h
  cases hf : b.source
  case none =>
    rw [hf] at h
    cases h
  case some f =>
    simp only [hf, ok_bind] at h
    obtain ⟨wheres, hwheres, h⟩ := bind_eq_ok.mp h
    obtain ⟨groups, hgroups, h⟩ := bind_eq_ok.mp h
    refine ⟨columns, joins, f, wheres, groups, hcolumns, hjoins, rfl, hwheres, hgroups, ?_⟩
    rw [← pure_eq_ok.mp h]
    rfl

theorem creation_lines {table : Option String} (ht : ∀ t ∈ table, OneLine t) :
    Lines ((creation d table).1 ++ "SELECT ").toList ∧ OneLine (creation d table).2 := by
  have hempty : OneLine "" := by decide
  have hselect : Lines ("" ++ "SELECT ").toList := .line (by decide) (by decide)
  cases table
  case none => exact ⟨hselect, hempty⟩
  case some t =>
    have ht : OneLine t := ht t rfl
    rw [creation]
    split
    case isTrue =>
      have hc : Lines ("CREATE TEMPORARY TABLE " ++ t).toList :=
        .line (by simp) (oneLine_append.mpr ⟨by decide, ht⟩)
      have hs : Opens "\nSELECT " := by decide
      exact ⟨by simpa using hs.continues hempty _ hc, hempty⟩
    case isFalse => exact ⟨hselect, oneLine_append.mpr ⟨by decide, ht⟩⟩

theorem fromText_continues {f : Source} (hf : ∀ w ∈ f.words, OneLine w) :
    Continues (fromText f) := by
  unfold fromText
  split
  case isTrue  => exact continues_of_oneLine (by decide)
  case isFalse => exact Opens.continues (by decide) (Source.text_oneLine hf)

theorem orderText_continues (hb : b.Plain) : Continues b.orderText := by
  unfold orderText
  split
  case h_1 => exact continues_of_oneLine (by decide)
  case h_2 key hk =>
    refine ((Opens.continues (by decide) (hb.order key hk)).append ?_).append ?_
    · exact continues_of_oneLine (by decide)
    · exact continues_of_oneLine b.directionText_oneLine

theorem limits_oneLine (d : Dialect) (b : Body) :
    OneLine (limits d b).1 ∧ OneLine (limits d b).2 := by
  unfold limits
  split_ifs <;> decide

-- The clauses of a statement are on lines of their own, and an empty line follows.
theorem statement_lines {table : Option String} (hb : b.Plain) (ht : ∀ t ∈ table, OneLine t)
    (h : b.statement d table = .ok s) : ∃ t : String, s = t ++ "\n\n" ∧ Lines t.toList := by
  obtain ⟨columns, joins, f, wheres, groups, hc, hj, hf, hw, hg, rfl⟩ := statement_eq_ok h
  refine ⟨_, rfl, ?_⟩
  obtain ⟨hbegin, hinto⟩ := creation_lines (d := d) ht
  obtain ⟨hlimit, htop⟩ := limits_oneLine d b
  have line {t : String} := continues_of_oneLine (s := t)
  have add {t x : String} (ht : Lines t.toList) (hx : Continues x) : Lines (t ++ x).toList := by
    simpa using hx _ ht
  have := add hbegin (line b.distinctText_oneLine)
  have := add this (line htop)
  have := add this (line (columnsText_oneLine hb hc))
  have := add this (line hinto)
  have := add this (fromText_continues (hb.source f hf))
  have := add this (joinsText_continues hb hj)
  have := add this (wheresText_continues hb hw)
  have := add this (groupsText_continues hb hg)
  have := add this (orderText_continues hb)
  exact add this (line hlimit)

end Body

-- What a dialect makes of the text of statements.
def Dialect.written (d : Dialect) (s : String) : String :=
  if d == .tSql then String.ofList (markNumbered "tmp".toList ['#'] s.toList) else s

theorem Dialect.lines_written (d : Dialect) (h : Lines s.toList) : Lines (d.written s).toList := by
  unfold written
  split
  case isTrue  => simpa using h.markNumbered (by decide) (by decide) (by decide)
  case isFalse => exact h

theorem Dialect.written_join (d : Dialect) (ps : List String) :
    d.written (String.join (ps.map (· ++ "\n\n")))
      = String.join ((ps.map d.written).map (· ++ "\n\n")) := by
  unfold written
  split
  case isFalse => simp
  case isTrue =>
    have hm (cs ds : List Char) : markNumbered "tmp".toList ['#'] (cs ++ '\n' :: '\n' :: ds)
        = markNumbered "tmp".toList ['#'] cs
          ++ '\n' :: '\n' :: markNumbered "tmp".toList ['#'] ds := by
      rw [markNumbered_append_cons (by decide) (by decide) rfl, ← nil_append ('\n' :: ds),
        markNumbered_append_cons (by decide) (by decide) rfl]
      rfl
    rw [← String.toList_inj, String.toList_ofList]
    induction ps
    case nil          => rfl
    case cons p ps ih => simp_all

namespace Query

structure Plain (q : Query) : Prop where
  body   : q.toBody.Plain
  frozen : ∀ f ∈ q.frozen, f.toBody.Plain
  tables : ∀ f ∈ q.frozen, OneLine f.table

theorem statements_eq_ok {q : Query} (h : q.statements d = .ok s) :
    ∃ tables main, q.frozen.mapM (fun f => f.toBody.statement d (some f.table)) = .ok tables ∧
      q.toBody.statement d none = .ok main ∧ s = d.written (String.join (tables ++ [main])) := by
  obtain ⟨tables, htables, h⟩ := bind_eq_ok.mp h
  obtain ⟨main, hmain, h⟩ := bind_eq_ok.mp h
  refine ⟨tables, main, htables, hmain, ?_⟩
  have hj : String.join (tables ++ [main]) = String.join tables ++ main := by simp
  rw [hj, Dialect.written]
  split at h <;> simp_all

/-- Cutting the statements of a query at empty lines gives the statements for its temporary tables
in their order and then its own, none of them empty. -/
theorem statements_split {q : Query} (hq : q.Plain) (h : q.statements d = .ok s) :
    ∃ tables main, q.frozen.mapM (fun f => f.toBody.statement d (some f.table)) = .ok tables ∧
      q.toBody.statement d none = .ok main ∧
      (Answer.statements s).map (· ++ "\n\n") = (tables ++ [main]).map d.written ∧
      (Answer.statements s).length = q.frozen.length + 1 ∧ ∀ p ∈ Answer.statements s, p ≠ "" := by
  obtain ⟨tables, main, htables, hmain, rfl⟩ := statements_eq_ok h
  have hlines : ∀ x ∈ tables ++ [main], ∃ t : String, x = t ++ "\n\n" ∧ Lines t.toList := by
    refine List.forall_mem_append.mpr ⟨forall_of_mapM htables fun f hf x hx => ?_, fun x hx => ?_⟩
    · exact Body.statement_lines (hq.frozen f hf) (by simpa using hq.tables f hf) hx
    · obtain rfl := List.mem_singleton.mp hx
      exact Body.statement_lines hq.body (by simp) hmain
  obtain ⟨ps, hps, hl⟩ := exists_map_eq hlines
  have hw : ∀ p ∈ ps.map d.written, Lines p.toList := by
    simpa using fun p hp => d.lines_written (hl p hp)
  have hlen : ps.length = q.frozen.length + 1 := by
    have := congrArg List.length hps
    simpa [(mapM_eq_ok.mp htables).length_eq] using this.symm
  have hn : ps.map d.written ≠ [] := by
    rw [← List.length_pos_iff]
    simp [hlen]
  have hs : Answer.statements (d.written (String.join (tables ++ [main]))) = ps.map d.written := by
    rw [hps, d.written_join, Answer.statements_join hw hn]
  refine ⟨tables, main, htables, hmain, ?_, by rw [hs, List.length_map, hlen], fun p hp => ?_⟩
  · rw [hs, hps]
    simpa using fun p _ => (d.written_join [p]).symm
  · have := (hw p (hs ▸ hp)).ne_nil
    simpa using this

-- The hours of each person, summed up in a temporary table, of which the greatest are asked for.
def hours : Frozen where
  domain   := [.column 1 "baan" "persoon_id" (some "")]
  codomain := [.expr 2 [.column 3 "baan" "uren" none] "uren" "SUM" "%s"]
  source   := some { part := 4, table := "baan" }
  groups   := .by [.column 1 "baan" "persoon_id" none]
  table    := "tmp0"

def longest : Query where
  domain   := [.column 5 "tmp0" "persoon_id" (some "")]
  codomain := [.column 6 "tmp0" "uren" (some "")]
  source   := some { part := 7, table := "tmp0" }
  orderBy  := some "uren"
  orderDir := "desc"
  part     := 8
  frozen   := [hours]

theorem hours_plain : hours.toBody.Plain where
  items  := by decide
  source := by
    rintro f ⟨⟩
    decide
  joins  := by decide
  wheres := by decide
  groups := by decide
  order  := nofun

theorem longest_plain : longest.Plain where
  body   := {
    items  := by decide
    source := by
      rintro f ⟨⟩
      decide
    joins  := by decide
    wheres := by decide
    groups := by decide
    order  := by
      rintro key ⟨⟩
      decide }
  frozen := forall_mem_singleton.mpr hours_plain
  tables := by decide

theorem statements_longest : longest.Plain ∧ ∃ s, longest.statements .tSql = .ok s ∧
    (Answer.statements s).length = 2 := by
  obtain ⟨s, hs⟩ : ∃ s, longest.statements .tSql = .ok s := ⟨_, rfl⟩
  obtain ⟨_, _, _, _, _, hlen, _⟩ := statements_split longest_plain hs
  exact ⟨longest_plain, s, hs, hlen⟩

end Query
end Sql
end Inquiry
