import Mathlib
import Inquiry.Proofs.Term.Congruence
import Inquiry.Proofs.Term.Renumbering
import Inquiry.Term.Storage

/-!
Reading a stored structure back. What is read differs from what was written in the serial numbers of
its applications only, as each kind is found again by its identifier.
-/

namespace Inquiry

open List Markup

theorem eraseDups_concat [BEq α] [LawfulBEq α] {as : List α} {a : α} :
    (as ++ [a]).eraseDups = if as.contains a then as.eraseDups else as.eraseDups ++ [a] := by
  by_cases h : a ∈ as
  case pos => simp [eraseDups_append, List.removeAll, h]
  case neg => simp [eraseDups_append, List.removeAll, h, eraseDups_cons]

namespace Markup.Element

-- The identifiers of the kinds that are used, in the order of the document.
def usedIds : Element → List String
  | mk tag attributes _ children _ =>
    if tag == "use" then (attributes.lookup "id").toList else usedIdsOfList children
where
  usedIdsOfList : List Element → List String
    | []      => []
    | e :: es => e.usedIds ++ usedIdsOfList es

end Markup.Element

namespace Term

def idText? (t : Term) : Option String :=
  (Uses.ident? t).map Ident.text

structure KindIn (K : Term → Prop) (k : Term) : Prop where
  mem    : K k
  isKind : k.isKind

-- The kinds that there are. Different ones have different identifiers and different numbers, and the
-- numbers from `n` on are not taken.
structure Stock (K : Term → Prop) (n : Nat) : Prop where
  named    : ∀ {k k'}, KindIn K k → KindIn K k' → idText? k = idText? k' → k = k'
  numbered : ∀ {k k'}, KindIn K k → KindIn K k' → k == k' → k = k'
  old      : ∀ {k i}, KindIn K k → k.serial? = some i → i < n

theorem KindIn.exists_idText {K : Term → Prop} {k : Term} (h : KindIn K k) :
    ∃ id, idText? k = some id := by
  have hk := h.isKind
  cases k <;> simp [Term.isKind] at hk
  exact ⟨_, rfl⟩

inductive Storable (K : Term → Prop) : Term → Prop
  | kind {h ty d c s} : Formed K (.kind h ty d c s) → Storable K (.kind h ty d c s)
  | app {n op ts ty} : op ∉ [.inverse, .range, .projection] → (∀ t ∈ ts, Storable K t) →
    (op = .inclusion ∨ op = .selection → Paired (fun _ => True) ts) →
    apply n op ts = .ok (.app n op ts ty) → Storable K (.app n op ts ty)

variable {K : Term → Prop} {t u k : Term} {ts us : List Term} {n m : Nat} {op : Op} {uses : Uses}

theorem storedOp?_label (h : op ∉ [Op.inverse, .range, .projection]) :
    storedOp? (some op.label) = some op := by
  cases op <;> first | rfl | simp at h

theorem Storable.formed (h : Storable K t) : Formed K t := by
  induction h
  case kind hf       => exact hf
  case app _ _ ha ih => exact .app ih ha

-- The kinds in a term that is stored, in the order in which they are written.
def kindsIn : Term → List Term
  | app _ _ args _ => kindsInList args
  | t              => [t]
where
  kindsInList : List Term → List Term
    | []      => []
    | t :: ts => kindsIn t ++ kindsInList ts

def written : Term → Element
  | app _ op args _ => .node "application" [("operation", op.label)] (writtenList args)
  | t               => .node "use" [("id", (idText? t).getD "")] []
where
  writtenList : List Term → List Element
    | []      => []
    | t :: ts => written t :: writtenList ts

theorem kindsInList_eq : kindsIn.kindsInList ts = ts.flatMap kindsIn := by
  induction ts <;> simp_all [kindsIn.kindsInList]

theorem writtenList_eq : written.writtenList ts = ts.map written := by
  induction ts <;> simp_all [written.writtenList]

theorem usedIdsOfList_eq {es : List Element} :
    Element.usedIds.usedIdsOfList es = es.flatMap Element.usedIds := by
  induction es <;> simp_all [Element.usedIds.usedIdsOfList]

namespace Storable

theorem kindIn (h : Storable K t) : ∀ k ∈ kindsIn t, KindIn K k := by
  induction h
  case kind hf => simpa [kindsIn] using ⟨hf.mem_kind, rfl⟩
  case app ih =>
    simp only [kindsIn, kindsInList_eq, mem_flatMap]
    rintro k ⟨t, ht, hk⟩
    exact ih t ht k hk

theorem usedIds (h : Storable K t) : (written t).usedIds = (kindsIn t).filterMap idText? := by
  induction h
  case kind hf => simp [kindsIn, written, Element.node, Element.usedIds, idText?, Uses.ident?]
  case app ih =>
    simp only [kindsIn, kindsInList_eq, written, writtenList_eq, Element.node, Element.usedIds,
      usedIdsOfList_eq, filterMap_flatMap, flatMap_map]
    exact flatMap_congr fun t ht => ih t ht

end Storable

def meet (w : Writing) (ks : List Term) : Writing :=
  { w with uses := ks.foldl Uses.add w.uses }

theorem meet_append (w : Writing) (ks ks' : List Term) : meet w (ks ++ ks') = meet (meet w ks) ks' := by
  simp [meet]

theorem runs_structureOfList (h : ∀ t ∈ ts, ∀ w, Runs (structureOf t) w (written t) (meet w (kindsIn t)))
    (w : Writing) : Runs (structureOf.structureOfList ts) w (ts.map written)
      (meet w (ts.flatMap kindsIn)) := by
  induction ts generalizing w
  case nil => exact .pure
  case cons t ts ih =>
    have ⟨ht, hts⟩ := forall_mem_cons.mp h
    rw [flatMap_cons, meet_append]
    exact (ht w).bind ((ih hts _).bind .pure)

theorem Storable.runs_structureOf (h : Storable K t) (w : Writing) :
    Runs (structureOf t) w (written t) (meet w (kindsIn t)) := by
  induction h generalizing w
  case kind hf => exact Runs.modify.bind .pure
  case app ih =>
    simp only [structureOf, kindsIn, kindsInList_eq, written, writtenList_eq]
    exact (runs_structureOfList ih w).bind .pure

-- The uses that are left when the kinds `ks` were met.
structure Met (K : Term → Prop) (ks : List Term) (uses : Uses) : Prop where
  kinds : ∀ k ∈ uses, KindIn K k
  found : ∀ k ∈ ks, k ∈ uses
  ids   : uses.ids = (ks.filterMap idText?).eraseDups

namespace Met

variable {ks ks' : List Term}

theorem nil : Met K [] [] := ⟨by simp, by simp, rfl⟩

theorem find? (hs : Stock K n) (h : Met K ks uses) (hk : k ∈ ks) {id : String}
    (hid : idText? k = some id) : uses.find? (some id) = some k := by
  have hk := h.found k hk
  have ⟨k', hk'⟩ : ∃ k', uses.find? (some id) = some k' := by
    refine Option.isSome_iff_exists.mp (find?_isSome.mpr ⟨k, hk, ?_⟩)
    simpa [idText?] using hid
  have hid' := find?_some hk'
  simp only [Bool.and_eq_true, beq_iff_eq] at hid'
  have hkk := hs.named (h.kinds k hk) (h.kinds k' (mem_of_find?_eq_some hk'))
    (hid.trans hid'.right.symm)
  rw [hkk, hk']

theorem any_iff (hs : Stock K n) (h : Met K ks uses) (hk : KindIn K k) :
    (uses.any fun u => Uses.ident? u == Uses.ident? k) ↔ k ∈ uses := by
  simp only [any_eq_true, beq_iff_eq]
  refine ⟨?_, fun hu => ⟨k, hu, rfl⟩⟩
  rintro ⟨u, hu, he⟩
  have heq := hs.named (h.kinds u hu) hk (by simp [idText?, he])
  exact heq ▸ hu

theorem mem_ids_iff (hs : Stock K n) (h : Met K ks uses) (hk : KindIn K k) {id : String}
    (hid : idText? k = some id) : id ∈ ks.filterMap idText? ↔ k ∈ uses := by
  rw [← mem_eraseDups, ← h.ids]
  refine ⟨fun hi => ?_, fun hk => mem_filterMap.mpr ⟨k, hk, hid⟩⟩
  have ⟨u, hu, huid⟩ := mem_filterMap.mp hi
  exact hs.named (h.kinds u hu) hk (Eq.trans huid hid.symm) ▸ hu

theorem add (hs : Stock K n) (h : Met K ks uses) (hk : KindIn K k) :
    Met K (ks ++ [k]) (uses.add k) := by
  have ⟨id, hid⟩ := hk.exists_idText
  have hks : (ks ++ [k]).filterMap idText? = ks.filterMap idText? ++ [id] := by
    simp [filterMap_append, hid]
  rw [Uses.add]
  split
  case isTrue ha =>
    have hmem := (h.any_iff hs hk).mp ha
    have hi := (h.mem_ids_iff hs hk hid).mpr hmem
    refine ⟨h.kinds, ?_, ?_⟩
    · simpa [or_imp, forall_and, hmem] using h.found
    · rw [hks, eraseDups_concat, if_pos (contains_iff_mem.mpr hi), h.ids]
  case isFalse ha =>
    have hi := mt (h.mem_ids_iff hs hk hid).mp (mt (h.any_iff hs hk).mpr ha)
    refine ⟨?_, ?_, ?_⟩
    · simpa [or_imp, forall_and, hk] using h.kinds
    · simpa [or_imp, forall_and] using fun k hk => Or.inl (h.found k hk)
    · have hadd : Uses.ids (uses ++ [k]) = uses.ids ++ [id] := by
        change (uses ++ [k]).filterMap idText? = uses.filterMap idText? ++ [id]
        simp [filterMap_append, hid]
      rw [hks, eraseDups_concat, if_neg (mt contains_iff_mem.mp hi), hadd, h.ids]

theorem foldl_add (hs : Stock K n) (h : Met K ks uses) (hk : ∀ k ∈ ks', KindIn K k) :
    Met K (ks ++ ks') (ks'.foldl Uses.add uses) := by
  induction ks' generalizing ks uses
  case nil => simpa using h
  case cons k ks' ih =>
    have ⟨hk, hks⟩ := forall_mem_cons.mp hk
    have h := ih (h.add hs hk) hks
    simpa using h

theorem of_kindIn (hs : Stock K n) (hk : ∀ k ∈ ks, KindIn K k) : Met K ks (ks.foldl Uses.add []) :=
  foldl_add hs nil hk

end Met

-- A kind that there was before, or an application with a number from `n` on and below `m`.
def Numbered (K : Term → Prop) (n m : Nat) (t : Term) : Prop :=
  KindIn K t ∨ ∃ i, t.serial? = some i ∧ n ≤ i ∧ i < m

theorem KindIn.exists_serial (h : KindIn K k) : ∃ i, k.serial? = some i := by
  have hk := h.isKind
  cases k <;> simp [Term.isKind] at hk
  exact ⟨_, rfl⟩

theorem serial_eq_of_beq {i j : Nat} (h : t == u) (ht : t.serial? = some i) (hu : u.serial? = some j) :
    i = j := by
  have h : t.same u := h
  simpa [same, ht, hu] using h

namespace Numbered

variable {m' : Nat}

theorem mono (h : Numbered K n m t) (hm : m ≤ m') : Numbered K n m' t := by
  obtain h | ⟨i, hi, hn, hm⟩ := h
  case inl => exact .inl h
  case inr => exact .inr ⟨i, hi, hn, by omega⟩

theorem mono_left (h : Numbered K m m' t) (hn : n ≤ m) : Numbered K n m' t := by
  obtain h | ⟨i, hi, hn, hm⟩ := h
  case inl => exact .inl h
  case inr => exact .inr ⟨i, hi, by omega, hm⟩

-- What is numbered later is not the same, unless it is a kind that there was before.
theorem eq_of_beq (hs : Stock K n) (hn : n ≤ m) (ht : Numbered K n m t) (hu : Numbered K m m' u)
    (h : t == u) : t = u := by
  obtain ht | ⟨i, hi, _, hm⟩ := ht <;> obtain hu | ⟨j, hj, hm', _⟩ := hu
  case inl.inl => exact hs.numbered ht hu h
  case inl.inr =>
    have ⟨i, hi⟩ := ht.exists_serial
    have := hs.old ht hi
    have := serial_eq_of_beq h hi hj
    omega
  case inr.inl =>
    have ⟨j, hj⟩ := hu.exists_serial
    have := hs.old hu hj
    have := serial_eq_of_beq h hi hj
    omega
  case inr.inr =>
    have := serial_eq_of_beq h hi hj
    omega

end Numbered

theorem Stock.later (hs : Stock K n) (h : n ≤ m) : Stock K m where
  named       := hs.named
  numbered    := hs.numbered
  old hk hi := Nat.lt_of_lt_of_le (hs.old hk hi) h

-- Wherever the numbers begin, reading gives the term again, with other numbers.
def ReadsBack (K : Term → Prop) (uses : Uses) (n : Nat) (t t' : Term) (n' : Nat) : Prop :=
  Runs (ofStructure uses (written t)) n t' n' ∧ n ≤ n' ∧ Alike t t' ∧ Numbered K n n' t'

theorem exists_readsBackList (hs : Stock K n)
    (h : ∀ t ∈ ts, ∀ m ≥ n, ∃ t' m', ReadsBack K uses m t t' m') :
    ∃ ts' n', Runs (ofStructure.ofStructures uses (ts.map written)) n ts' n' ∧ n ≤ n' ∧
      Forall₂ Alike ts ts' ∧ (∀ t' ∈ ts', Numbered K n n' t') ∧ Identified ts' := by
  induction ts generalizing n
  case nil => exact ⟨[], n, .pure, Nat.le_refl n, .nil, by simp, by simp [Identified]⟩
  case cons t ts ih =>
    obtain ⟨ht, hts⟩ := forall_mem_cons.mp h
    obtain ⟨t', m, hr, hm, ha, hk⟩ := ht n (Nat.le_refl n)
    obtain ⟨ts', n', hrs, hn', has, hks, hid⟩ := ih (hs.later hm)
      fun u hu i hi => hts u hu i (by omega)
    refine ⟨t' :: ts', n', hr.bind (hrs.bind .pure), by omega, .cons ha has, ?_, ?_⟩
    · simp only [forall_mem_cons]
      exact ⟨hk.mono hn', fun u hu => (hks u hu).mono_left hm⟩
    · intro a ha b hb hab
      obtain rfl | hat := mem_cons.mp ha <;> obtain rfl | hbt := mem_cons.mp hb
      case inl.inl => rfl
      case inl.inr => exact hk.eq_of_beq hs hm (hks b hbt) hab
      case inr.inl => exact (hk.eq_of_beq hs hm (hks a hat) (beq_symm hab)).symm
      case inr.inr => exact hid a hat b hbt hab

theorem runs_build (h : apply n op ts = .ok t) : Runs (build op ts) n t (n + Op.serials) :=
  Runs.get.bind (Runs.set.bind (.ofExcept h))

theorem ofStructure_application {es : List Element} (ho : op ∉ [Op.inverse, .range, .projection]) :
    ofStructure uses (.node "application" [("operation", op.label)] es) =
      ofStructure.ofStructures uses es >>= build op := by
  simp [Element.node, ofStructure, storedOp?_label ho]

theorem ofStructure_use {id : String} (h : uses.find? (some id) = some k) :
    ofStructure uses (.node "use" [("id", id)] []) = return k := by
  simp [Element.node, ofStructure, h]

theorem Storable.exists_readsBack {ks : List Term} (hs : Stock K n) (hm : Met K ks uses)
    (h : Storable K t) (hk : ∀ k ∈ kindsIn t, k ∈ ks) : ∃ t' n', ReadsBack K uses n t t' n' := by
  induction h generalizing n
  case kind hf =>
    have hfind := hm.find? hs (hk _ (mem_singleton_self _)) rfl
    refine ⟨_, n, ?_, Nat.le_refl n, .refl _, .inl ⟨hf.mem_kind, rfl⟩⟩
    have hread := ofStructure_use hfind
    exact hread ▸ .pure
  case app op ts ty ho _ hp ha ih =>
    simp only [kindsIn, kindsInList_eq, mem_flatMap] at hk
    have ⟨ts', m, hr, hnm, hts, hnum, hid⟩ := exists_readsBackList hs fun t ht i hi =>
      ih t ht (hs.later hi) fun k hk' => hk k ⟨t, ht, hk'⟩
    have hadm : Agree (· = ·) (op.admits ts) (op.admits ts') := by
      by_cases hc : op = .inclusion ∨ op = .selection
      case pos =>
        have ha := (apply_eq_ok.mp ha).left
        rw [ha, agree_admits_paired hc hts ha (hp hc) hid]
        exact .ok rfl
      case neg =>
        exact agree_admits Alike.indistinct hts op (mt .inl hc) (mt .inr hc)
    have ⟨t', ht', hal⟩ := (agree_apply (m := m) Alike.indistinct hts hadm).exists_ok ha
    obtain ⟨_, _, _, rfl⟩ := apply_eq_ok.mp ht'
    refine ⟨_, m + Op.serials, ?_, ?_, hal, .inr ⟨m, rfl, hnm, ?_⟩⟩
    · rw [written, writtenList_eq, ofStructure_application ho]
      exact hr.bind (runs_build ht')
    · omega
    · simp [Op.serials]

end Term
end Inquiry
