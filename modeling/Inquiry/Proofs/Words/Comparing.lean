import Mathlib
import Inquiry.Words.Order

/-!
Words that sort. Whether words of comparison are put into the lists in place or along the way into new
ones, the same lists result: each word that sorts has one right before it, and nothing else changes.
-/

namespace Inquiry

open List

namespace Meaning

def isList : Meaning → Bool
  | list _ => true
  | _      => false

-- Something that is not a list, perhaps with a direction.
inductive Sortable : Meaning → Prop
  | alone {m}  : m.isList = false → Sortable m
  | pair {m d} : m.isList = false → d ∈ ["asc", "desc"] → Sortable (list [m, text d])

end Meaning

namespace Words

-- What the three lists have at one place.
structure Entry where
  token   : String
  meaning : Meaning
  keyword : String

namespace Entry

-- What is put before an entry that sorts.
def mark (e : Entry) : List Entry :=
  match e.meaning with
  | .list [_, .text "asc"]  => [⟨"kleinste", .nothing, Keyword.smallest⟩]
  | .list [_, .text "desc"] => [⟨"grootste", .nothing, Keyword.greatest⟩]
  | _                       => []

def bare (e : Entry) : Entry :=
  match e.meaning with
  | .list (m :: _) => { e with meaning := m }
  | _              => e

def marked (e : Entry) : List Entry :=
  e.mark ++ [e.bare]

end Entry

def columns (es : List Entry) : Columns :=
  (es.map Entry.token, es.map Entry.meaning, es.map Entry.keyword)

variable {e : Entry} {es : List Entry} {m : Meaning} {ms : List Meaning}
  {t k : String} {ts ks : List String} {i : Nat}

theorem marked_alone (h : m.isList = false) : Entry.marked ⟨t, m, k⟩ = [⟨t, m, k⟩] := by
  cases m <;> simp_all [Entry.marked, Entry.mark, Entry.bare, Meaning.isList]

theorem marked_pair {d : String} (hd : d ∈ ["asc", "desc"]) (t k : String) (m : Meaning) :
    ∃ w c, comparison (.text d) = [(w, c)] ∧
      Entry.marked ⟨t, .list [m, .text d], k⟩ = [⟨w, .nothing, c⟩, ⟨t, m, k⟩] := by
  simp only [mem_cons, not_mem_nil, or_false] at hd
  obtain rfl | rfl := hd <;> exact ⟨_, _, rfl, rfl⟩

theorem not_isList_of_mem_marked {f : Entry} (h : e.meaning.Sortable) (hf : f ∈ e.marked) :
    f.meaning.isList = false := by
  obtain ⟨t, m, k⟩ := e
  cases h
  case alone hm =>
    rw [marked_alone hm, mem_singleton] at hf
    exact hf ▸ hm
  case pair m d hm hd =>
    obtain ⟨w, c, -, he⟩ := marked_pair hd t k m
    simp only [he, mem_cons, not_mem_nil, or_false] at hf
    obtain rfl | rfl := hf
    · rfl
    · exact hm

theorem withOrder_eq (h : ∀ e ∈ es, e.meaning.Sortable) :
    withOrder (es.map Entry.token) (es.map Entry.meaning) (es.map Entry.keyword) =
      .ok (columns (es.flatMap Entry.marked)) := by
  induction es
  case nil => rfl
  case cons e es ih =>
    obtain ⟨he, hes⟩ := forall_mem_cons.mp h
    obtain ⟨t, m, k⟩ := e
    simp only [map_cons, withOrder, ih hes, flatMap_cons]
    cases he
    case alone hm =>
      have hs : splitOrder m = .ok ([], [], m) := by cases m <;> simp_all [splitOrder, Meaning.isList]
      rw [hs, marked_alone hm]
      rfl
    case pair m d hm hd =>
      obtain ⟨w, c, hc, he⟩ := marked_pair hd t k m
      rw [splitOrder, hc, he]
      rfl

theorem insertFrom_alone (h : m.isList = false) (hi : i < ks.length) :
    insertFrom i ts ks (m :: ms) =
      (fun r => (r.1, m :: r.2.1, r.2.2)) <$> insertFrom (i + 1) ts ks ms := by
  rw [insertFrom.eq_def, if_neg (by omega)]
  cases m <;> simp_all [Meaning.isList]

theorem insertAt_append {xs ys : List String} (h : xs.length = i) (x : String) :
    Sequence.insertAt (xs ++ ys) i x = xs ++ x :: ys := by
  simp [← h, Sequence.insertAt, Sequence.bound]

-- The places before `i` are done, and what is put at place `i` moves the entries that are to come.
theorem insertFrom_eq (h : ∀ e ∈ es, e.meaning.Sortable) (ht : ts.length = i) (hk : ks.length = i) :
    insertFrom i (ts ++ es.map Entry.token) (ks ++ es.map Entry.keyword) (es.map Entry.meaning) =
      .ok (ts ++ (es.flatMap Entry.marked).map Entry.token,
        (es.flatMap Entry.marked).map Entry.meaning,
        ks ++ (es.flatMap Entry.marked).map Entry.keyword) := by
  induction es generalizing i ts ks
  case nil =>
    rw [insertFrom.eq_def, if_pos (by simp [hk])]
    rfl
  case cons e es ih =>
    obtain ⟨he, hes⟩ := forall_mem_cons.mp h
    obtain ⟨t, m, k⟩ := e
    simp only [map_cons, flatMap_cons]
    cases he
    case alone hm =>
      rw [insertFrom_alone hm (by simp [hk]), append_cons ts, append_cons ks,
        ih hes (by simp [ht]) (by simp [hk]), marked_alone hm]
      simp
    case pair m d hm hd =>
      obtain ⟨w, c, hc, he⟩ := marked_pair hd t k m
      rw [insertFrom.eq_def, if_neg (by simp [hk])]
      simp only [hc, map_cons, map_nil, foldl_cons, foldl_nil,
        insertAt_append ht, insertAt_append hk]
      rw [insertFrom_alone hm (by simp [hk]), append_cons ts, append_cons ks,
        append_cons (ts ++ [w]), append_cons (ks ++ [c]),
        ih hes (by simp [ht]) (by simp [hk]), he]
      simp

theorem columns_zipWith3 (ht : ts.length = ms.length) (hk : ks.length = ms.length) :
    columns (List.zipWith3 Entry.mk ts ms ks) = (ts, ms, ks) := by
  induction ms generalizing ts ks
  case nil =>
    rw [eq_nil_of_length_eq_zero ht, eq_nil_of_length_eq_zero hk]
    rfl
  case cons m ms ih =>
    obtain ⟨t, ts, rfl⟩ := exists_cons_of_length_eq_add_one ht
    obtain ⟨k, ks, rfl⟩ := exists_cons_of_length_eq_add_one hk
    simpa [columns, List.zipWith3] using ih (Nat.succ.inj ht) (Nat.succ.inj hk)

-- Both ways give the same entries, each one that sorts bare and with its mark right before it.
theorem marked_alike (ts : List String) (ms : List Meaning) (ks : List String)
    (ht : ts.length = ms.length) (hk : ks.length = ms.length) (hm : ∀ m ∈ ms, m.Sortable) :
    ∃ out, insertOrder ts ms ks = .ok (columns out) ∧
      withOrder ts ms ks = .ok (columns out) ∧ (∀ e ∈ out, e.meaning.isList = false) ∧
      out = (List.zipWith3 Entry.mk ts ms ks).flatMap fun e => e.mark ++ [e.bare] := by
  have he := columns_zipWith3 ht hk
  generalize List.zipWith3 Entry.mk ts ms ks = es at he
  obtain ⟨rfl, rfl, rfl⟩ : es.map Entry.token = ts ∧ es.map Entry.meaning = ms ∧
      es.map Entry.keyword = ks := by simpa [columns] using he
  rw [List.forall_mem_map] at hm
  have hi := @insertFrom_eq es [] [] 0 hm rfl rfl
  refine ⟨es.flatMap Entry.marked, hi, withOrder_eq hm, fun f hf => ?_, rfl⟩
  obtain ⟨e, hes, hf⟩ := List.mem_flatMap.mp hf
  exact not_isList_of_mem_marked (hm e hes) hf

theorem oldest_marked :
    insertOrder ["wie", "oudst"] [.nothing, .list [.text "leeftijd", .text "desc"]]
        ["<whowhat>", "<numvar>"] =
      .ok (["wie", "grootste", "oudst"], [.nothing, .nothing, .text "leeftijd"],
        ["<whowhat>", "<greatest>", "<numvar>"]) := by
  have hm : ∀ m ∈ [Meaning.nothing, .list [.text "leeftijd", .text "desc"]], m.Sortable := by
    simpa using ⟨.alone rfl, .pair rfl (by simp)⟩
  obtain ⟨_, hi, -, -, rfl⟩ :=
    marked_alike ["wie", "oudst"] _ ["<whowhat>", "<numvar>"] rfl rfl hm
  exact hi

end Words
end Inquiry
