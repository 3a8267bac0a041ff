import Mathlib
import Inquiry.Graph.Statement
import Inquiry.Session.Recall

/-!
The ends of an edge are kept as text. Names are put into it as they are, so that it is read back
where the names have no control characters; quotes and backslashes are left out here.
-/

namespace Inquiry

namespace Json

-- Characters that end a string, or begin something else in it.
def Unquoted (s : String) : Prop :=
  ∀ c ∈ s.toList, c ≠ '"' ∧ c ≠ '\\'

def printable (s : String) : Bool :=
  s.toList.all (32 ≤ ·.toNat)

-- A string is read up to its quote, unless a control character comes before it.
theorem string?_eq {cs rest acc : List Char} {n : Nat} (h : ∀ c ∈ cs, c ≠ '"' ∧ c ≠ '\\')
    (hn : cs.length < n) : string? n acc (cs ++ '"' :: rest) =
      if cs.all (32 ≤ ·.toNat) then some (String.ofList (acc.reverse ++ cs), rest) else none := by
  induction cs generalizing n acc
  case nil =>
    obtain ⟨n, rfl⟩ := Nat.exists_eq_add_of_lt hn
    simp [string?]
  case cons c cs ih =>
    obtain ⟨n, rfl⟩ : ∃ m, n = m + 1 := ⟨n - 1, by simp at hn; omega⟩
    obtain ⟨⟨hq, hb⟩, h⟩ := List.forall_mem_cons.mp h
    have ih := @ih (c :: acc) n h (by simpa using hn)
    rw [List.cons_append, string?]
    · by_cases hc : c.toNat < 32
      case pos => simp [hc]
      case neg => simp [hc, hb, ih, Nat.not_lt.mp hc]
    · exact hq
    · intro _ _ hc
      exact absurd hc hb

theorem string?_text {s : String} {rest : List Char} (h : Unquoted s) :
    string? ((s.toList ++ '"' :: rest).length + 1) [] (s.toList ++ '"' :: rest) =
      if printable s then some (s, rest) else none := by
  rw [string?_eq h (by simp)]
  simp [printable]

theorem value?_text {s : String} {rest : List Char} {n : Nat} (h : Unquoted s) :
    value? (n + 1) ('"' :: (s.toList ++ '"' :: rest)) =
      if printable s then some (str s, rest) else none := by
  rw [value?, string?_text h]
  split <;> rfl

theorem skipBlanks_append {c : Char} {b rest : List Char} (hb : b.all isBlank)
    (hc : isBlank c = false) : skipBlanks (b ++ c :: rest) = c :: rest := by
  rw [skipBlanks, List.dropWhile_append_of_pos (by simpa using hb)]
  simp [hc]

-- A field with a text for its value. Blanks may stand before the value, and the sign after it tells
-- whether more fields follow.
theorem fields?_field {k v : String} {acc : List (String × Json)} {blanks rest : List Char}
    {sign : Char} {n : Nat} (hk : Unquoted k) (hp : printable k) (hb : blanks.all isBlank)
    (hv : Unquoted v) (hs : sign = ',' ∨ sign = '\x7d') : fields? (n + 2) acc
      ('"' :: (k.toList ++ '"' :: ':' :: (blanks ++ '"' :: (v.toList ++ '"' :: sign :: rest)))) =
        if !printable v then none
        else if sign = ',' then fields? (n + 1) (setField k (str v) acc) rest
        else some (setField k (str v) acc, rest) := by
  have hq (cs : List Char) : skipBlanks ('"' :: cs) = '"' :: cs := rfl
  have hc (cs : List Char) : skipBlanks (':' :: cs) = ':' :: cs := rfl
  have hm (cs : List Char) : skipBlanks (sign :: cs) = sign :: cs :=
    skipBlanks_append (b := []) rfl (by obtain rfl | rfl := hs <;> rfl)
  rw [fields?]
  simp only [hq, hc, string?_text hk, hp, if_true, Option.bind_eq_bind, Option.bind_some,
    skipBlanks_append hb (c := '"') rfl, value?_text hv]
  cases printable v
  case false => rfl
  case true  => obtain rfl | rfl := hs <;> simp [hm]

end Json

namespace Record

def ofText (s : String) : Except Failure Record := do
  ofJson 1 (← Json.parse s)

theorem toList_endText (e : EndName) : (Statement.endText e).toList =
    '\x7b' :: '"' :: ("name".toList ++ '"' :: ':' :: ([' '] ++ '"' :: (e.name.toList ++ '"' :: ',' ::
      ' ' :: '"' :: ("sort".toList ++ '"' :: ':' :: ([] ++ '"' :: (e.sort.toList ++ '"' ::
        ['\x7d'])))))) := by
  simp [Statement.endText]

theorem parse_endText {e : EndName} (hn : Json.Unquoted e.name) (hs : Json.Unquoted e.sort) :
    Json.parse (Statement.endText e) =
      if Json.printable e.name && Json.printable e.sort then
        .ok (.obj [("name", .str e.name), ("sort", .str e.sort)])
      else .error .malformedJson := by
  have hname : Json.Unquoted "name" := by simp [Json.Unquoted]
  have hsort : Json.Unquoted "sort" := by simp [Json.Unquoted]
  have hb (n : Nat) (acc : List (String × Json)) (cs : List Char) :
      Json.fields? n acc (' ' :: cs) = Json.fields? n acc cs := by
    cases n <;> rfl
  -- Both fields can be read before the fuel runs out.
  obtain ⟨n, hl⟩ : ∃ n, (Statement.endText e).toList.length = n + 3 :=
    ⟨_, (Nat.sub_add_cancel (by simp [Statement.endText])).symm⟩
  have hv : Json.value? (n + 3 + 1) (Json.skipBlanks (Statement.endText e).toList) =
      if Json.printable e.name && Json.printable e.sort then
        some (.obj [("name", .str e.name), ("sort", .str e.sort)], [])
      else none := by
    rw [toList_endText]
    change (Json.fields? (n + 3) [] _).map _ = _
    rw [Json.fields?_field hname rfl rfl hn (.inl rfl), hb,
      Json.fields?_field hsort rfl rfl hs (.inr rfl)]
    cases Json.printable e.name <;> cases Json.printable e.sort <;> rfl
  rw [Json.parse]
  simp only [hl, hv]
  cases Json.printable e.name && Json.printable e.sort <;> rfl

-- The text of an end tells its name and its sort, unless there are control characters in them.
theorem ofText_endText_iff {e : EndName} (hn : Json.Unquoted e.name) (hs : Json.Unquoted e.sort) :
    ofText (Statement.endText e) = .ok (ofEnd e) ↔ Json.printable e.name ∧ Json.printable e.sort := by
  rw [ofText, parse_endText hn hs]
  by_cases h : Json.printable e.name && Json.printable e.sort
  case pos =>
    rw [if_pos h]
    exact ⟨fun _ => by simpa using h, fun _ => rfl⟩
  case neg =>
    rw [if_neg h]
    simpa [bind, Except.bind] using h

end Record
end Inquiry
