import Mathlib
import Inquiry.Proofs.Answer.Statements
import Inquiry.Proofs.Sql.RecodedTerm
import Inquiry.Proofs.Term.Congruence

/-!
Codes in statements. A code is one literal unless it holds a quote or what is marked as a temporary
table. Codes that are told apart alike can be exchanged: outside their literals the statements stay
the same.
-/

namespace Inquiry

open List

namespace Text

theorem toList_underscored (s : String) :
    (underscored s).toList = s.toList.map fun c => if c = ' ' then '_' else c := by
  simp [underscored]

theorem unquoted_underscored {s : String} : Unquoted (underscored s) ↔ Unquoted s := by
  rw [Unquoted, Unquoted, toList_underscored, mem_map]
  refine not_congr ⟨fun h => ?_, fun h => ⟨_, h, by decide⟩⟩
  obtain ⟨c, hc, he⟩ := h
  split at he
  · cases he
  · exact he ▸ hc

theorem numbered_of_within {word cs : List Char} {n : Nat}
    (h : word ++ (toString n).toList <:+: cs) : Numbered word cs := by
  have hne : (toString n).toList ≠ [] := by
    rw [Nat.toString_eq_repr, Nat.toList_repr]
    exact Nat.toDigits_ne_nil
  obtain ⟨d, ds, hd⟩ := exists_cons_of_ne_nil hne
  refine ⟨d, isDigit_of_mem_toString (hd ▸ mem_cons_self), List.IsInfix.trans ?_ h⟩
  rw [hd]
  exact ⟨[], ds, by simp⟩

end Text

namespace Term

/-- What is written in quotes: the codes of the constants, and a star that stands for no value. -/
def literals (t : Term) : List String :=
  "*" :: t.kinds.filterMap constantCode?

end Term

namespace Sql

open SessionM Text

section Statements

variable {ι : Type} {K : Coding ι} {b b' : Body} {q q' : Query} {table : Option String}

namespace Body

theorem statement_eq {f : Source} (d : Dialect) (hf : b.source = some f) : b.statement d table = (do
    let columns ← b.columnsText
    let joins ← b.joinsText
    let wheres ← b.wheresText
    let groups ← b.groupsText
    return (creation d table).1 ++ "SELECT " ++ b.distinctText ++ (limits d b).2 ++ columns
      ++ (creation d table).2 ++ fromText f ++ joins ++ wheres ++ groups ++ b.orderText
      ++ (limits d b).1 ++ "\n\n") := by
  unfold statement
  rw [hf]
  rfl

theorem unquoted_creation (d : Dialect) (ht : ∀ t ∈ table, Unquoted t) :
    Unquoted (creation d table).1 ∧ Unquoted (creation d table).2 := by
  have hempty : Unquoted "" := by decide
  unfold creation
  cases table
  case none => exact ⟨hempty, hempty⟩
  case some t =>
    have ht := ht t rfl
    dsimp only
    split
    · exact ⟨unquoted_append.mpr ⟨unquoted_append.mpr ⟨by decide, ht⟩, by decide⟩, hempty⟩
    · exact ⟨hempty, unquoted_append.mpr ⟨by decide, ht⟩⟩

theorem unquoted_limits (d : Dialect) (b : Body) :
    Unquoted (limits d b).1 ∧ Unquoted (limits d b).2 := by
  unfold limits
  split_ifs <;> decide

namespace Recoded

theorem limits_eq (h : b.Recoded K b') (d : Dialect) : limits d b' = limits d b := by
  rw [limits, limits, h.orderBy]

theorem orderText_eq (h : b.Recoded K b') : b'.orderText = b.orderText := by
  rw [orderText, orderText, h.directionText_eq, h.orderBy]

theorem unquoted_orderText (h : b.Recoded K b') : Unquoted b.orderText := by
  have := h.unquoted_order "" (by decide)
  unfold orderText
  cases ho : b.orderBy <;> simpa only [ho, String.append_empty] using this

theorem statement (h : b.Recoded K b') (d : Dialect) (ht : ∀ t ∈ table, Unquoted t) :
    Agree K.Led (b.statement d table) (b'.statement d table) := by
  cases hf : b.source
  case none =>
    unfold Body.statement
    rw [← h.source, hf]
    exact h.columnsText.bind fun _ _ _ => h.joinsText.bind fun _ _ _ => .error
  case some f =>
    rw [statement_eq d hf, statement_eq d (h.source ▸ hf)]
    refine h.columnsText.bind fun cols cols' hcols => h.joinsText.bind fun js js' hjs => ?_
    refine h.wheresText.bind fun ws ws' hws => h.groupsText.bind fun gs gs' hgs => .ok ?_
    obtain ⟨hcreate, hinto⟩ := unquoted_creation d ht
    obtain ⟨hlimit, htop⟩ := unquoted_limits d b
    have hfront : Unquoted (b.distinctText ++ (limits d b).2) :=
      unquoted_append.mpr ⟨unquoted_distinctText b, htop⟩
    have hmid : K.Led ((creation d table).2 ++ fromText f) ((creation d table).2 ++ fromText f) :=
      Coding.led_append (Coding.led_self hinto) (led_from (h.stored f hf).recoded.text)
    have hlast : Unquoted (b.orderText ++ ((limits d b).1 ++ "\n\n")) :=
      unquoted_append.mpr ⟨h.unquoted_orderText, unquoted_append.mpr ⟨hlimit, by decide⟩⟩
    have hselect : Unquoted ((creation d table).1 ++ "SELECT ") :=
      unquoted_append.mpr ⟨hcreate, by decide⟩
    rw [h.distinctText_eq, h.limits_eq, h.orderText_eq]
    have := Coding.led_word hselect (by simp) (like_clauses hfront hcols hmid hjs hws hgs hlast)
    simpa only [String.append_assoc] using this

end Recoded

end Body

theorem Query.Recoded.statements (h : q.Recoded K q') (d : Dialect)
    (hd : d = .tSql → ∀ i, ¬Numbered "tmp".toList (K.left i) ∧ ¬Numbered "tmp".toList (K.right i)) :
    Agree K.Like (q.statements d) (q'.statements d) := by
  refine .bind (R := Forall₂ K.Led) (Agree.mapM h.frozen fun f f' hf => ?_) fun ts ts' hts => ?_
  · exact hf.table ▸ hf.body.statement d fun t ht => Option.some.inj ht ▸ hf.stored.unquoted
  refine (h.body.statement d (by simp)).bind fun main main' hmain => ?_
  have hall := (Coding.led_append (Coding.led_join hts) hmain).like
  dsimp only
  split
  case isTrue ht =>
    have hd := hd (by simpa using ht)
    exact .ok (Coding.like_markNumbered (by decide) (by decide) (by decide) (fun i => (hd i).1)
      (fun i => (hd i).2) hall)
  case isFalse => exact .ok hall

end Statements

variable {r : Setting} {t : Term} {f : String → String}

-- The code is not mixed up with the tables that are read, nor with temporary ones.
@[mk_iff]
structure Harmless (r : Setting) (t : Term) (code : String) : Prop where
  unquoted : Unquoted code
  unmarked : ¬Numbered "tmp".toList (underscored code).toList
  tables   : ∀ k ∈ t.kinds, ∀ table ∈ storedTables r k, table ≠ "" →
    ¬table.toList <:+: (underscored code).toList

instance (code : String) : Decidable (Harmless r t code) :=
  decidable_of_iff _ (harmless_iff r t code).symm


-- The codes of a term can be exchanged for others.
@[mk_iff]
structure Exchange (r : Setting) (t : Term) (f : String → String) : Prop where
  star   : f "*" = "*"
  same   : ∀ c ∈ t.literals, ∀ c' ∈ t.literals,
    underscored c = underscored c' ↔ underscored (f c) = underscored (f c')
  codes  : ∀ c ∈ t.literals, Harmless r t c ∧ Harmless r t (f c)
  names  : ∀ k ∈ t.kinds, ∀ h ∈ k.head?, h.cls ≠ .constant → Unquoted h.name
  tables : ∀ k ∈ t.kinds, ∀ table ∈ storedTables r k,
    Unquoted table ∧ table.toList.getLast? ≠ some '_'

instance : Decidable (Exchange r t f) :=
  decidable_of_iff _ (exchange_iff r t f).symm

namespace Exchange

def coding (h : Exchange r t f) : Coding { c // c ∈ t.literals } where
  left c     := (underscored c.1).toList
  right c    := (underscored (f c.1)).toList
  left_bare  := fun c => unquoted_underscored.mpr (h.codes c.1 c.2).1.unquoted
  right_bare := fun c => unquoted_underscored.mpr (h.codes c.1 c.2).2.unquoted
  same       := fun c c' => by
    rw [String.toList_inj, String.toList_inj]
    exact h.same c.1 c.2 c'.1 c'.2

theorem avoids_temporary (h : Exchange r t f) (n : Nat) : h.coding.Avoids ("tmp" ++ toString n) where
  unquoted := unquoted_append.mpr ⟨by decide, unquoted_toString n⟩
  ending   := by
    intro he
    have hm := mem_of_getLast? he
    rw [String.toList_append, mem_append] at hm
    obtain hm | hm := hm
    · exact absurd hm (by decide)
    · exact absurd (isDigit_of_mem_toString hm) (by decide)
  left     := fun _ c hc => by
    rw [String.toList_append] at hc
    exact (h.codes c.1 c.2).1.unmarked (numbered_of_within hc)
  right    := fun _ c hc => by
    rw [String.toList_append] at hc
    exact (h.codes c.1 c.2).2.unmarked (numbered_of_within hc)

theorem avoids_stored (h : Exchange r t f) {k : Term} {table : String} (hk : k ∈ t.kinds)
    (ht : table ∈ storedTables r k) : h.coding.Avoids table where
  unquoted := (h.tables k hk table ht).1
  ending   := (h.tables k hk table ht).2
  left     := fun hn c => (h.codes c.1 c.2).1.tables k hk table ht hn
  right    := fun hn c => (h.codes c.1 c.2).2.tables k hk table ht hn

theorem single_literal (h : Exchange r t f) {c : String} (hc : c ∈ t.literals) :
    h.coding.Single ("'" ++ underscored c ++ "'") ("'" ++ underscored (f c) ++ "'") := by
  have := Coding.single_place (K := h.coding) ⟨c, hc⟩
  simpa [coding] using this

theorem recodable (h : Exchange r t f) {k : Term} (hk : k ∈ t.kinds) :
    Recodable h.coding r f k where
  name   := fun hd hh hc => unquoted_underscored.mpr (h.names k hk hd hh hc)
  tables := fun _ ht => h.avoids_stored hk ht
  code   := fun _ hc => h.single_literal
    (mem_cons_of_mem _ (mem_filterMap.mpr ⟨k, hk, hc⟩))

theorem compile_recode {s s' : Session} {q : Query} (h : Exchange r t f)
    (hq : (compile r t).Gives s q s') :
    ∃ q', (compile r (t.recode f)).Gives s q' s' ∧ q.Recoded h.coding q' := by
  have hstar : h.coding.Single "'*'" "'*'" := by
    have hu : underscored "*" = "*" := by simp [← String.toList_inj, toList_underscored]
    have := h.single_literal (c := "*") mem_cons_self
    rwa [h.star, hu] at this
  exact (recoded_compile h.avoids_temporary hstar fun k hk => h.recodable hk).exists_gives hq

theorem read_statements {q q' : Query} {d : Dialect} {text : String} (h : Exchange r t f)
    (hq : q.Recoded h.coding q') (ht : q.statements d = .ok text) :
    ∃ text' code marks, q'.statements d = .ok text' ∧ marks ⊆ t.literals ∧
      read none text.toList = some (code, marks.map fun c => (underscored c).toList) ∧
      read none text'.toList = some (code, marks.map fun c => (underscored (f c)).toList) := by
  have hd : ∀ i, ¬Numbered "tmp".toList (h.coding.left i) ∧ ¬Numbered "tmp".toList (h.coding.right i) :=
    fun c => ⟨(h.codes c.1 c.2).1.unmarked, (h.codes c.1 c.2).2.unmarked⟩
  obtain ⟨text', ht', hl⟩ := (hq.statements d fun _ => hd).exists_ok ht
  obtain ⟨code, places, hr, hr'⟩ := Coding.read_eq hl
  refine ⟨text', code, places.map Subtype.val, ht', ?_, ?_, ?_⟩
  · intro c hc
    obtain ⟨i, _, rfl⟩ := mem_map.mp hc
    exact i.2
  · rw [map_map]
    exact hr
  · rw [map_map]
    exact hr'

end Exchange

theorem compileConstant_gives {h : KindHead} {code : String} (hc : h.code = some code)
    (s : Session) : ∃ q s', (compileConstant h).Gives s q s' ∧
      q.codomain.mapM Item.text = .ok ["'" ++ underscored code ++ "'"] := by
  rw [compileConstant, hc]
  refine ⟨_, _, rfl, ?_⟩
  simp [Item.text, aliasText]

-- A code is one literal in a dialect unless it holds a quote, or something that the dialect marks.
theorem isLiteral_written_iff (d : Dialect) (code : String) :
    IsLiteral (underscored code).toList (d.written ("'" ++ underscored code ++ "'")).toList ↔
      Unquoted code ∧ (d = .tSql → ¬Numbered "tmp".toList (underscored code).toList) := by
  have htext : ("'" ++ underscored code ++ "'").toList = Text.literal (underscored code).toList := by
    simp [Text.literal, quoteMark]
  have hq : quoteMark ∉ (underscored code).toList ↔ Unquoted code := unquoted_underscored
  unfold Dialect.written
  split
  case isTrue hd =>
    have hd : d = .tSql := by simpa using hd
    rw [String.toList_ofList, htext, isLiteral_marked_iff (a := '#') (by decide) (by decide)
      (by decide) (by decide), hq]
    simp [hd]
  case isFalse hd =>
    have hd : d ≠ .tSql := by simpa using hd
    rw [htext, isLiteral_literal_iff, hq]
    simp [hd]

/-- The text of a constant is a literal that says its code, exactly if the code holds no quote and
nothing that the dialect marks. Where codes can be exchanged, a query reads the same outside its
literals whatever the codes are, and each literal says a code. -/
theorem codes_read_from_literals (r : Setting) :
    (∀ (h : KindHead) (code : String), h.code = some code → ∀ s, ∃ q s',
      (compileConstant h).Gives s q s' ∧
      ∃ text, q.codomain.mapM Item.text = .ok [text] ∧ ∀ d : Dialect,
        IsLiteral (underscored code).toList (d.written text).toList ↔
          Unquoted code ∧ (d = .tSql → ¬Numbered "tmp".toList (underscored code).toList)) ∧
    ∀ (t : Term) (f : String → String) (s s' : Session) (q : Query), Exchange r t f →
      (compile r t).Gives s q s' →
      ∃ q', (compile r (t.recode f)).Gives s q' s' ∧ ∀ (d : Dialect) (text : String),
        q.statements d = .ok text →
        ∃ text' code marks, q'.statements d = .ok text' ∧ marks ⊆ t.literals ∧
          read none text.toList = some (code, marks.map fun c => (underscored c).toList) ∧
          read none text'.toList = some (code, marks.map fun c => (underscored (f c)).toList) := by
  refine ⟨fun h code hc s => ?_, fun t f s s' q h hq => ?_⟩
  · obtain ⟨q, s', hq, ht⟩ := compileConstant_gives hc s
    exact ⟨q, s', hq, _, ht, fun d => isLiteral_written_iff d code⟩
  · obtain ⟨q', hq', hr⟩ := h.compile_recode hq
    exact ⟨q', hq', fun d text ht => h.read_statements hr ht⟩

namespace Dwelling

open Term Copies

def placeNames : Term :=
  .kind { serial := 1, id := .given "plaatsnaam", cls := .phenomenon, name := "plaatsnaam",
          sort := .phenomenon } none none none none

def element (n : Nat) (cls : KindClass) (name : String) (code : Option String) (d c : Term) : Term :=
  .kind { serial := n, id := .given name, cls, name, sort := cls.sort, code }
    (some (.app (n + 1) .functionalType [d, c] none)) (some d) (some c) none

def home     := element 3 .variable "woonplaats" none (person 2) placeNames
def everyone := element 5 .variable "alle" none (person 2) .one
def city     := element 7 .constant "Den Haag" (some "Den Haag") .one placeNames

def cityOfAll : Term :=
  .app 9 .composition [city, everyone] (some (.app 10 .functionalType [person 2, placeNames] none))

def inhabitants : Term :=
  .app 11 .inclusion [home, cityOfAll]
    (some (.app 13 .functionalType [.app 12 .selection [home, cityOfAll] none, person 2] none))

example : apply 9 .composition [city, everyone] = .ok cityOfAll := rfl

example : apply 11 .inclusion [home, cityOfAll] = .ok inhabitants := rfl

def setting : Setting where
  designs := [.kind { serial := 14, id := .given "persoon", cls := .datasetDesign, name := "persoon",
                      sort := .datasetDesign } none none none (some home)]

def toDelft (code : String) : String :=
  if code = "Den Haag" then "Delft" else code

def statement : String :=
  "SELECT persoon.persoon_id, persoon.persoon_id\nFROM persoon\n"
    ++ "WHERE (persoon.woonplaats = 'Den_Haag')\n\n"

theorem exchange : Exchange setting inhabitants toDelft := by
  decide +kernel

def hague : KindHead where
  serial := 7
  id     := .given "Den Haag"
  cls    := .constant
  name   := "Den Haag"
  sort   := .constant
  code   := some "'s-Gravenhage"

theorem marks_eq {code : List Char} {marks : List String} (hm : marks ⊆ inhabitants.literals)
    (hr : read none statement.toList = some (code, marks.map fun c => (underscored c).toList)) :
    marks = ["Den Haag"] := by
  have hsaid : (read none statement.toList).map Prod.snd = some ["Den_Haag".toList] := by
    decide +kernel
  rw [hr] at hsaid
  obtain ⟨c, rfl, hc⟩ := map_eq_singleton_iff.mp (Option.some.inj hsaid)
  obtain rfl | hc' := mem_cons.mp (hm mem_cons_self)
  · exact absurd hc (by decide +kernel)
  · have hcodes : inhabitants.kinds.filterMap constantCode? = ["Den Haag"] := by decide +kernel
    rw [hcodes] at hc'
    rw [mem_singleton.mp hc']

theorem city_exchanged :
    (∃ q s' text, (compileConstant hague).Gives {} q s' ∧
      q.codomain.mapM Item.text = .ok [text] ∧
      ∀ d : Dialect, ¬IsLiteral "'s-Gravenhage".toList (d.written text).toList) ∧
    ∃ q q' s' text' code, Exchange setting inhabitants toDelft ∧
      (compile setting inhabitants).Gives {} q s' ∧
      (compile setting (inhabitants.recode toDelft)).Gives {} q' s' ∧
      q.statements .tSql = .ok statement ∧ q'.statements .tSql = .ok text' ∧
      read none statement.toList = some (code, ["Den_Haag".toList]) ∧
      read none text'.toList = some (code, ["Delft".toList]) := by
  obtain ⟨hconstant, hexchange⟩ := codes_read_from_literals setting
  constructor
  · obtain ⟨q, s', hq, text, ht, h⟩ := hconstant hague _ rfl {}
    have hu : underscored "'s-Gravenhage" = "'s-Gravenhage" := by decide +kernel
    rw [hu] at h
    exact ⟨q, s', text, hq, ht, fun d hd => absurd ((h d).mp hd).1 (by decide)⟩
  · obtain ⟨q, s', hq, ht⟩ := exists_gives_of_any (x := compile setting inhabitants) (s := {})
      (P := fun q => (q.statements .tSql).toOption == some statement) (by decide +kernel)
    have ht : q.statements .tSql = .ok statement := by
      cases hs : q.statements .tSql <;> simp_all [Except.toOption]
    obtain ⟨q', hq', h⟩ := hexchange inhabitants toDelft {} s' q exchange hq
    obtain ⟨text', code, marks, ht', hm, hr, hr'⟩ := h .tSql statement ht
    obtain rfl := marks_eq hm hr
    have hold : ["Den Haag"].map (fun c => (underscored c).toList) = ["Den_Haag".toList] := by
      decide +kernel
    have hnew : ["Den Haag"].map (fun c => (underscored (toDelft c)).toList) = ["Delft".toList] := by
      decide +kernel
    exact ⟨q, q', s', text', code, exchange, hq, hq', ht, ht', hold ▸ hr, hnew ▸ hr'⟩

end Dwelling

end Sql
end Inquiry
