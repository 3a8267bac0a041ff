import Mathlib
import Inquiry.Proofs.Session.Keeping
import Inquiry.Words.Reading

/-!
A request that was cut into tokens, read with its names and keywords. Each place keeps its token,
its synonym, its kind and its keyword. Only the keyword of a variable of categories that was found
by a synonym is put behind all others.
-/

namespace Inquiry

open List Term SessionM Keyword Meaning

namespace Session

-- All that is known is a type, or an element between types.
structure Typed (s : Session) : Prop extends Sound s where
  known : ∀ (name : String) (k : Term), s.known[name]? = some k →
    k.TypeKind ∨ ∃ d c, k.ElementKind d c

theorem Typed.know {s : Session} {name : String} {k : Term} (hs : s.Typed)
    (h : (s.know name k).Sound) (hk : k.TypeKind ∨ ∃ d c, k.ElementKind d c) :
    (s.know name k).Typed where
  toSound := h
  known name' k' hk' := by
    by_cases hn : name' = name
    case pos =>
      rw [hn, known_know] at hk'
      exact Option.some.inj hk' ▸ hk
    case neg =>
      rw [known_know_of_ne s k hn] at hk'
      exact hs.known name' k' hk'

theorem Typed.numbered {s : Session} (hs : s.Typed) : s.numbered.Typed :=
  ⟨hs.toSound.numbered, hs.known⟩

theorem Typed.kept : Kept Typed where
  sound hs    := hs.toSound
  numbered hs := hs.numbered
  node hs hv hk hn h :=
    hs.numbered.know ((SoundOn.kept _).node ⟨hs.toSound, rfl⟩ hv hk hn h).sound (.inl hk)
  edge hs he hd hc hk hn h :=
    hs.numbered.know ((SoundOn.kept _).edge ⟨hs.toSound, rfl⟩ he hd hc hk hn h).sound
      (.inr ⟨_, _, hk⟩)

end Session

namespace Keyword

-- The keyword of a kind goes by its class, and that of a variable by the values that it has.
inductive Marks (k : Term) : String → Prop
  | relation   : k.cls? = some .objectTypeRelation → Marks k "<otr>"
  | objectType : k.cls? = some .objectType → Marks k "<ot>"
  | constant   : k.cls? = some .constant → Marks k "<const>"
  | numeric    : k.cls? = some .variable → k.goal = .ok c → c.name = .ok "getal" → Marks k "<numvar>"
  | category   : k.cls? = some .variable → k.goal = .ok c → c.name = .ok n → n ≠ "getal" →
      Marks k "<catvar>"
  | number     : (∀ c ∈ [.objectTypeRelation, .objectType, .constant, .variable],
      k.cls? ≠ some c) → k.name = .ok "getal" → Marks k "<number>"

variable {k : Term}

theorem Marks.isVariable {w : String} (h : Marks k w) (hw : w = "<catvar>") : k.isVariable := by
  cases h <;> simp_all [Term.isVariable, Term.hasClass]

theorem ofMeaning_variable {c : Term} {n : String} (hk : k.cls? = some .variable)
    (hg : k.goal = .ok c) (hc : c.name = .ok n) :
    ∃ r, ofMeaning (.term k) = .ok r ∧ ∀ w, Marks k w ↔ r = some w := by
  have hv : ofVariable k = .ok (if n = "getal" then numeric else category) := by
    simp [ofVariable, hg, hc, pure, Except.pure]
  refine ⟨some (if n = "getal" then numeric else category), ?_, fun w => ?_⟩
  · simp [ofMeaning, hk, hv, Functor.map, Except.map]
  constructor
  case mp =>
    intro h
    cases h <;> simp_all [numeric, category]
  case mpr =>
    rintro ⟨rfl⟩
    by_cases h : n = "getal"
    case pos =>
      rw [if_pos h]
      exact .numeric hk hg (h ▸ hc)
    case neg =>
      rw [if_neg h]
      exact .category hk hg hc h

theorem ofMeaning_other {n : String} (hk : k.cls? ≠ some .variable) (hn : k.name = .ok n) :
    ∃ r, ofMeaning (.term k) = .ok r ∧ ∀ w, Marks k w ↔ r = some w := by
  rw [ofMeaning]
  split
  case h_1 hc =>
    refine ⟨_, rfl, fun w => ⟨fun h => ?_, by rintro ⟨rfl⟩; exact .relation hc⟩⟩
    cases h <;> simp_all [relation]
  case h_2 hc =>
    refine ⟨_, rfl, fun w => ⟨fun h => ?_, by rintro ⟨rfl⟩; exact .objectType hc⟩⟩
    cases h <;> simp_all [objectType]
  case h_3 hc =>
    refine ⟨_, rfl, fun w => ⟨fun h => ?_, by rintro ⟨rfl⟩; exact .constant hc⟩⟩
    cases h <;> simp_all [constant]
  case h_4 hc => exact absurd hc hk
  case h_5 =>
    refine ⟨if n = "getal" then some number else none, ?_, fun w => ?_⟩
    · simp [hn, pure, Except.pure]
    constructor
    case mp =>
      intro h
      cases h <;> simp_all [number]
    case mpr =>
      intro h
      split at h
      case isTrue hg =>
        cases h
        exact .number (by simp_all) (hg ▸ hn)
      case isFalse => cases h

theorem ofMeaning_eq (hk : k.TypeKind ∨ ∃ d c, k.ElementKind d c) :
    ∃ r, ofMeaning (.term k) = .ok r ∧ ∀ w, Marks k w ↔ r = some w := by
  obtain ⟨h, _, _, _, _, rfl, hc⟩ | ⟨d, c, ⟨h, _, _, rfl, hc⟩, _, h', _, _, _, _, rfl, _⟩ := hk
  · have hv : h.cls ≠ .variable := by
      intro hv
      simp [hv, KindClass.isType] at hc
    exact ofMeaning_other (n := h.name) (by simpa [cls?] using hv) rfl
  · by_cases hv : h.cls = .variable
    case pos =>
      apply ofMeaning_variable (n := h'.name) (by simp [cls?, hv])
      · simp [Term.goal, Term.codomain?, hc, Functor.map, Except.map]
        rfl
      · rfl
    case neg => exact ofMeaning_other (n := h.name) (by simpa [cls?] using hv) rfl

end Keyword

namespace Words

-- The search for a synonym finds a word for every word, and the entries of the lexicon are names of
-- kinds with their sorts.
structure Knowledge.Searches (k : Knowledge) (similar : String → String) : Prop where
  similar : ∀ w, k.similar w = .ok (similar w)
  entries : ∀ w m, k.lexicon.text? w = some m → ∃ name sort c, m = .named name sort ∧
    KindClass.ofLabel? sort = some c

-- A place of a request, first with its token, name and keyword. Then it gets the kind of its name,
-- and what its token is found to stand for by a synonym.
structure Place where
  token   : String
  name    : Meaning
  keyword : String
  kind    : Term := .nothing
  object  : Term := .nothing
  synonym : Option String := none

namespace Place

-- The name of the place is that of a kind, if there is one in the graph.
def Named (s : Session) (p : Place) : Prop :=
  p.name = .nothing ∧ p.kind = .nothing ∨ ∃ name, p.name = .text name ∧
    (s.known[name]? = some p.kind ∨
      p.kind = .nothing ∧ s.graph.node? name = none ∧ s.graph.edge? name = none)

def Unknown (k : Knowledge) (p : Place) : Prop :=
  p.kind = .nothing ∧ p.token ∉ stopWords ∧ p.token ∉ k.vocab

-- The kind of an entry, if there is one in the graph.
def Found (s : Session) (p : Place) (name sort : String) : Prop :=
  s.known[name]? = some p.object ∨ p.object = .nothing ∧ ∃ c, KindClass.ofLabel? sort = some c ∧
    if c.isType then s.graph.node? name = none else s.graph.edge? name = none

structure Understood (k : Knowledge) (similar : String → String) (s : Session) (p : Place) :
    Prop where
  kept    : ¬p.Unknown k → p.object = p.kind ∧ p.synonym = none
  synonym : p.Unknown k → p.synonym =
    if similar p.token ∈ k.vocab then some (similar p.token) else none
  absent  : p.Unknown k → k.lexicon.text? (similar p.token) = none → p.object = .nothing
  entry   : p.Unknown k → ∀ name sort, k.lexicon.text? (similar p.token) = some (.named name sort) →
    p.Found s name sort

-- A synonym was found that is a word.
def Told (p : Place) : Prop :=
  ∃ w, p.synonym = some w ∧ w ≠ ""

-- The keyword of a variable of categories that was found by a synonym does not get to its place.
def Late (p : Place) : Prop :=
  p.Told ∧ Keyword.Marks p.object "<catvar>"

-- The keyword at the place when the synonyms have been found: that of the kind, or else the one that
-- was there.
inductive Keyed (p : Place) : String → Prop
  | found : p.Told → Keyword.Marks p.object w → w ≠ "<catvar>" → Keyed p w
  | kept  : (p.Told → ∀ w, Keyword.Marks p.object w → w = "<catvar>") → Keyed p p.keyword

variable {p : Place} {s s' : Session} {k : Knowledge} {similar : String → String}

theorem Named.later (h : p.Named s) (hl : s.Later s') : p.Named s' := by
  obtain h | ⟨name, hn, hk⟩ := h
  · exact .inl h
  · rw [← hl.graph] at hk
    exact .inr ⟨name, hn, hk.imp_left (hl.known _ _)⟩

theorem Understood.later (h : p.Understood k similar s) (hl : s.Later s') :
    p.Understood k similar s' where
  kept    := h.kept
  synonym := h.synonym
  absent  := h.absent
  entry hu name sort he := by
    have hf := h.entry hu name sort he
    rw [Found, ← hl.graph] at hf
    exact hf.imp_left (hl.known _ _)

theorem not_marks_nothing {w : String} : ¬Keyword.Marks .nothing w := by
  rintro (h | h | h | h | h | h) <;> simp_all [Term.cls?, Term.name]

theorem isFilled_of_typed {t : Term} (h : t.TypeKind ∨ ∃ d c, t.ElementKind d c) :
    isFilled (.term t) := by
  obtain ⟨_, _, _, _, _, rfl, _⟩ | ⟨_, _, ⟨_, _, _, rfl, _⟩, _, _⟩ := h <;> rfl

open Classical in
-- What becomes of the keywords at one place: the keyword there is changed, or one is added behind
-- the last one.
theorem exists_addSynonym (p : Place)
    (ho : p.object = .nothing ∨ p.object.TypeKind ∨ ∃ d c, p.object.ElementKind d c)
    (front back : List String) : ∃ w, p.Keyed w ∧
      addSynonym (front ++ p.keyword :: back) front.length (.term p.object) p.synonym =
        .ok (front ++ w :: (back ++ List.replicate (if p.Late then 1 else 0) "<catvar>")) := by
  rw [addSynonym]
  have hsyn : p.synonym.any (!·.isEmpty) = decide p.Told := by
    rw [Bool.eq_iff_iff]
    cases hp : p.synonym <;> simp [Told, hp]
  rw [hsyn]
  by_cases ht : p.Told
  case neg =>
    refine ⟨p.keyword, .kept fun h => absurd h ht, ?_⟩
    simp [ht, Late, pure, Except.pure]
  case pos =>
    obtain ho | ho := ho
    · have hm (w : String) : ¬Keyword.Marks p.object w := ho ▸ not_marks_nothing
      refine ⟨p.keyword, .kept fun _ w h => absurd h (hm w), ?_⟩
      have hl : ¬p.Late := fun h => hm _ h.right
      simp [hl, ho, isFilled, pure, Except.pure]
    obtain ⟨r, hr, hm⟩ := ofMeaning_eq ho
    simp only [isFilled_of_typed ho, ht, decide_true, Bool.and_self, if_true, hr, ok_bind]
    cases r
    case none =>
      refine ⟨p.keyword, .kept fun _ w h => absurd ((hm w).mp h) nofun, ?_⟩
      simp [Late, hm, pure, Except.pure]
    case some w =>
      have hw : Keyword.Marks p.object w := (hm w).mpr rfl
      by_cases hc : w = "<catvar>"
      case pos =>
        subst hc
        have hv := hw.isVariable rfl
        refine ⟨p.keyword, .kept fun _ w h => (Option.some.inj ((hm w).mp h)).symm, ?_⟩
        simp [Late, ht, hw, asTerm, hv, category, pure, Except.pure]
      case neg =>
        refine ⟨w, .found ht hw hc, ?_⟩
        have hl : ¬p.Late := fun h => hc (Option.some.inj ((hm _).mp h.right))
        simp [hl, hc, Keyword.category, Keyword.replace]

end Place

variable {s : Session} {k : Knowledge} {similar : String → String}

open Classical in
theorem exists_foldlM_addSynonym {ps : List Place}
    (ho : ∀ p ∈ ps, p.object = .nothing ∨ p.object.TypeKind ∨ ∃ d c, p.object.ElementKind d c)
    (front back : List String) : ∃ ws, Forall₂ Place.Keyed ps ws ∧
      (ps.zipIdx front.length).foldlM
          (fun ks p => addSynonym ks p.2 (.term p.1.object) p.1.synonym)
          (front ++ (ps.map (·.keyword) ++ back)) =
        .ok (front ++ (ws ++ (back ++ List.replicate (ps.countP (·.Late)) "<catvar>"))) := by
  -- The keywords before the place are done, and those behind the last place have been added so far.
  induction ps generalizing front back
  case nil => exact ⟨[], .nil, by simp [pure, Except.pure]⟩
  case cons p ps ih =>
    obtain ⟨hp, hps⟩ := forall_mem_cons.mp ho
    obtain ⟨w, hw, he⟩ := p.exists_addSynonym hp front (ps.map (·.keyword) ++ back)
    obtain ⟨ws, hws, hes⟩ := ih hps (front ++ [w])
      (back ++ List.replicate (if p.Late then 1 else 0) "<catvar>")
    refine ⟨w :: ws, .cons hw hws, ?_⟩
    simp only [map_cons, cons_append, zipIdx_cons, foldlM_cons, he, ok_bind]
    simp only [length_append, length_singleton, append_assoc, singleton_append]
      at hes
    rw [append_assoc, hes, countP_cons, Nat.add_comm, ← replicate_append_replicate]
    simp

open Classical in
theorem exists_addSynonyms {ps : List Place}
    (ho : ∀ p ∈ ps, p.object = .nothing ∨ p.object.TypeKind ∨ ∃ d c, p.object.ElementKind d c) :
    ∃ ws, Forall₂ Place.Keyed ps ws ∧
      addSynonyms (ps.map (.term ·.object)) (ps.map (·.synonym)) (ps.map (·.keyword)) =
        .ok (ws ++ List.replicate (ps.countP (·.Late)) "<catvar>") := by
  obtain ⟨ws, hws, he⟩ := exists_foldlM_addSynonym ho [] []
  refine ⟨ws, hws, ?_⟩
  simpa [addSynonyms, Sequence.numbered, zip_map', zipIdx_map, foldlM_map]
    using he

theorem isNothing_iff {t : Term} : (term t).isNothing ↔ t = .nothing := by
  cases t <;> simp [isNothing]

theorem exists_understand (hs : s.Typed) (hk : k.Searches similar) (p : Place) :
    ∃ o y s', (understand k p.token (.term p.kind)).Gives s (.term o, y) s' ∧ s.Later s' ∧
      s'.Typed ∧ Place.Understood k similar s' { p with object := o, synonym := y } := by
  have hcond : ((term p.kind).isNothing && !stopWords.contains p.token &&
      !k.vocab.contains p.token) = true ↔ p.Unknown k := by
    simp [Place.Unknown, isNothing_iff, and_assoc]
  rw [understand]
  by_cases hu : p.Unknown k
  case neg =>
    refine ⟨p.kind, none, s, ?_, .refl s, hs, fun _ => ⟨rfl, rfl⟩, fun h => absurd h hu,
      fun h => absurd h hu, fun h => absurd h hu⟩
    rw [if_neg (hcond.not.mpr hu)]
    exact gives_done
  case pos =>
    rw [if_pos (hcond.mpr hu)]
    have hsim := gives_ofExcept.mpr ⟨hk.similar p.token, rfl (a := s)⟩
    cases hm : k.lexicon.text? (similar p.token)
    case none =>
      refine ⟨p.kind, if similar p.token ∈ k.vocab then some (similar p.token) else none, s,
        .bind hsim (by simp [hm]), .refl s, hs, fun h => absurd hu h, fun _ => rfl,
        fun _ _ => hu.left, fun _ _ _ h => ?_⟩
      simp [hm] at h
    case some m =>
      obtain ⟨name, sort, c, rfl, hc⟩ := hk.entries _ _ hm
      obtain ⟨o, s', ho, hr⟩ :=
        @kindOfSort_recalls _ _ Session.Typed.kept name sort c hc hs
      refine ⟨o, if similar p.token ∈ k.vocab then some (similar p.token) else none, s',
        .bind hsim ?_, ?_, ?_, fun h => absurd hu h, fun _ => rfl, fun _ h => ?_, fun _ _ _ h => ?_⟩
      · simp only [hm, entryKind]
        exact .bind ho.map (by simp)
      · obtain hr | ⟨_, rfl, _⟩ := hr
        · exact hr.later
        · exact .refl _
      · obtain hr | ⟨_, rfl, _⟩ := hr
        · exact hr.kept
        · exact hs
      · simp [hm] at h
      · cases hm.symm.trans h
        obtain hr | ⟨hn, rfl, _, hg⟩ := hr
        · exact .inl hr.known
        · exact .inr ⟨hn, c, hc, hg⟩

theorem exists_recognise (hk : k.Searches similar) (hs : s.Typed) (ps : List Place) :
    ∃ ps' s', (recognise k (ps.map (·.token)) (ps.map (.term ·.kind))).Gives s
        (ps'.map (.term ·.object), ps'.map (·.synonym)) s' ∧ s.Later s' ∧ s'.Typed ∧
      Forall₂ (fun p p' => ∃ o y, p' = { p with object := o, synonym := y }) ps ps' ∧
      ∀ p ∈ ps', p.Understood k similar s' := by
  induction ps generalizing s
  case nil => exact ⟨[], s, gives_done, .refl s, hs, .nil, nofun⟩
  case cons p ps ih =>
    obtain ⟨o, y, s₁, hp, hl₁, hs₁, hu⟩ := exists_understand hs hk p
    obtain ⟨ps', s₂, hps, hl₂, hs₂, hsame, hall⟩ := ih hs₁
    refine ⟨{ p with object := o, synonym := y } :: ps', s₂, ?_, hl₁.trans hl₂, hs₂,
      .cons ⟨o, y, rfl⟩ hsame, forall_mem_cons.mpr ⟨hu.later hl₂, hall⟩⟩
    exact .bind hp (.bind hps (gives_done))

theorem exists_kindsGiven (hs : s.Typed) {ps : List Place}
    (hn : ∀ p ∈ ps, p.name = .nothing ∨ ∃ name, p.name = .text name) :
    ∃ ps' s', ((ps.map (·.name)).mapM kindGiven).Gives s (ps'.map (.term ·.kind)) s' ∧
      s.Later s' ∧ s'.Typed ∧ Forall₂ (fun p p' => ∃ t, p' = { p with kind := t }) ps ps' ∧
      ∀ p ∈ ps', p.Named s' := by
  induction ps generalizing s
  case nil => exact ⟨[], s, gives_mapM_nil, .refl s, hs, .nil, nofun⟩
  case cons p ps ih =>
    obtain ⟨hp, hps⟩ := forall_mem_cons.mp hn
    obtain ⟨t, s₁, ht, hl₁, hs₁, hnamed⟩ : ∃ t s₁, (kindGiven p.name).Gives s (.term t) s₁ ∧
        s.Later s₁ ∧ s₁.Typed ∧ Place.Named s₁ { p with kind := t } := by
      obtain hp | ⟨name, hp⟩ := hp
      · refine ⟨.nothing, s, ?_, .refl s, hs, .inl ⟨hp, rfl⟩⟩
        rw [hp]
        exact gives_done
      · obtain ⟨t, s₁, ht, hr⟩ := kindNamed_recalls Session.Typed.kept name hs
        rw [hp]
        obtain hr | ⟨rfl, rfl, hg⟩ := hr
        · exact ⟨t, s₁, ht.map, hr.later, hr.kept, .inr ⟨name, rfl, .inl hr.known⟩⟩
        · exact ⟨.nothing, s₁, ht.map, .refl _, hs, .inr ⟨name, rfl, .inr ⟨rfl, hg⟩⟩⟩
    obtain ⟨ps', s₂, hps, hl₂, hs₂, hsame, hall⟩ := ih hs₁ hps
    exact ⟨{ p with kind := t } :: ps', s₂, .mapM_cons ht hps, hl₁.trans hl₂, hs₂,
      .cons ⟨t, rfl⟩ hsame, forall_mem_cons.mpr ⟨hnamed.later hl₂, hall⟩⟩

theorem exists_places {tokens keywords : List String} {names : List Meaning}
    (hn : names.length = tokens.length) (hk : keywords.length = tokens.length) :
    ∃ ps : List Place, ps.map (·.token) = tokens ∧ ps.map (·.name) = names ∧
      ps.map (·.keyword) = keywords := by
  induction tokens generalizing names keywords
  case nil => exact ⟨[], rfl, (length_eq_zero_iff.mp hn).symm, (length_eq_zero_iff.mp hk).symm⟩
  case cons token tokens ih =>
    obtain ⟨name, names, rfl⟩ := exists_cons_of_length_eq_add_one hn
    obtain ⟨keyword, keywords, rfl⟩ := exists_cons_of_length_eq_add_one hk
    obtain ⟨ps, ht, hn, hk⟩ := ih (Nat.succ.inj hn) (Nat.succ.inj hk)
    exact ⟨⟨token, name, keyword, .nothing, .nothing, none⟩ :: ps, by simp [ht], by simp [hn],
      by simp [hk]⟩

theorem Place.Understood.typed {p : Place} (hk : k.Searches similar) (hs : s.Typed)
    (hn : p.Named s) (hu : p.Understood k similar s) :
    p.object = .nothing ∨ p.object.TypeKind ∨ ∃ d c, p.object.ElementKind d c := by
  by_cases h : p.Unknown k
  case pos =>
    cases hm : k.lexicon.text? (similar p.token)
    case none   => exact .inl (hu.absent h hm)
    case some m =>
      obtain ⟨name, sort, _, rfl, _⟩ := hk.entries _ _ hm
      obtain ho | ⟨ho, _⟩ := hu.entry h name sort hm
      · exact .inr (hs.known _ _ ho)
      · exact .inl ho
  case neg =>
    rw [(hu.kept h).left]
    obtain ⟨_, ht⟩ | ⟨_, _, ht | ⟨ht, _⟩⟩ := hn
    · exact .inl ht
    · exact .inr (hs.known _ _ ht)
    · exact .inl ht

open Classical in
-- The reading `r` of tokens that came with names and keywords, place by place. Behind the keywords
-- of the places stand those of the variables of categories that were found by a synonym.
structure ReadByPlace (k : Knowledge) (similar : String → String) (s : Session)
    (tokens : List String) (names : List Meaning) (keywords : List String) (r : Reading)
    (ps : List Place) : Prop where
  given    : ps.map (·.token) = tokens ∧ ps.map (·.name) = names ∧ ps.map (·.keyword) = keywords
  places   : ∀ p ∈ ps, p.Named s ∧ p.Understood k similar s
  tokens   : r.tokens = tokens
  synonyms : r.synonyms = ps.map (·.synonym)
  meanings : r.meanings = ps.map (.term ·.object)
  keywords : ∃ ws, Forall₂ Place.Keyed ps ws ∧
    r.keywords = ws ++ List.replicate (ps.countP (·.Late)) "<catvar>"

-- Tokens with as many names and keywords are read, and the four lists that come of it have the same
-- length exactly if no variable of categories was found by a synonym.
theorem readTokens_aligned_iff (hs : s.Typed) (hk : k.Searches similar)
    {tokens keywords : List String} {names : List Meaning} (hn : names.length = tokens.length)
    (hw : keywords.length = tokens.length)
    (ht : ∀ m ∈ names, m = .nothing ∨ ∃ name, m = .text name) :
    ∃ r s' ps, (readTokens k tokens names keywords).Gives s r s' ∧
      ReadByPlace k similar s' tokens names keywords r ps ∧
      r.tokens.length = tokens.length ∧ r.synonyms.length = tokens.length ∧
      r.meanings.length = tokens.length ∧
      (r.keywords.length = tokens.length ↔ ∀ p ∈ ps, ¬p.Late) := by
  obtain ⟨ps₀, rfl, rfl, rfl⟩ := exists_places hn hw
  obtain ⟨ps₁, s₁, h₁, hl₁, hs₁, hsame₁, hall₁⟩ :=
    exists_kindsGiven hs fun p hp => ht _ (List.mem_map_of_mem (l := ps₀) hp)
  obtain ⟨ps, s', h₂, hl₂, hs', hsame, hall⟩ := exists_recognise hk hs₁ ps₁
  have hnamed : ∀ p ∈ ps, p.Named s' := by
    intro p hp
    obtain ⟨q, hq, _, _, rfl⟩ := exists_of_mem_right hsame hp
    exact (hall₁ q hq).later hl₂
  obtain ⟨ws, hws, h₃⟩ := exists_addSynonyms fun p hp => (hall p hp).typed hk hs' (hnamed p hp)
  -- The places have kept their tokens, names and keywords.
  have first {α : Type} (f : Place → α) (hf : ∀ p t, f { p with kind := t } = f p) :
      ps₀.map f = ps₁.map f := by
    apply map_eq_map_of_forall₂ hsame₁
    rintro p _ ⟨t, rfl⟩
    exact (hf p t).symm
  have second {α : Type} (f : Place → α) (hf : ∀ p o y, f { p with object := o, synonym := y } = f p) :
      ps₁.map f = ps.map f := by
    apply map_eq_map_of_forall₂ hsame
    rintro p _ ⟨o, y, rfl⟩
    exact (hf p o y).symm
  have htokens   := first (·.token) fun _ _ => rfl
  have hkeywords := (first (·.keyword) fun _ _ => rfl).trans (second (·.keyword) fun _ _ _ => rfl)
  have hlen : (ps₀.map (·.token)).length = ps.length := by
    rw [List.length_map, hsame₁.length_eq, hsame.length_eq]
  refine ⟨⟨_, _, _, _⟩, s', ps, ?_,
    ⟨⟨?_, ?_, hkeywords.symm⟩, fun p hp => ⟨hnamed p hp, hall p hp⟩, rfl, rfl, rfl, ws, hws, rfl⟩,
    rfl, ?_, ?_, ?_⟩
  · refine .bind h₁ (.bind (htokens ▸ h₂) ?_)
    rw [hkeywords]
    exact .bind (SessionM.gives_ofExcept.mpr ⟨h₃, rfl⟩) (SessionM.gives_done)
  · exact (htokens.trans (second (·.token) fun _ _ _ => rfl)).symm
  · exact ((first (·.name) fun _ _ => rfl).trans (second (·.name) fun _ _ _ => rfl)).symm
  · rw [hlen, List.length_map]
  · rw [hlen, List.length_map]
  · rw [hlen, hws.length_eq]
    simp

-- Persons and the sex that they have.
namespace Sexes

def graph : Graph where
  nodes := #[⟨"persoon", "ObjectType", none⟩, ⟨"sekse", "Phenomenon", none⟩]
  edges := #[
    { name := "geslacht", sort := "Variable", source := 0, target := 1,
      domain := ⟨"persoon", "ObjectType"⟩, codomain := ⟨"sekse", "Phenomenon"⟩ }]

def session : Session := ({ graph } : Session).know "1" .one

def knowledge : Knowledge where
  lexicon := [(.text "sekse", .named "geslacht" "Variable")]
  vocab   := ["sekse"]
  similar := fun _ => .ok "sekse"

theorem graph_sound : graph.Sound where
  distinct := by decide
  types    := by
    simp only [graph, mem_toArray, forall_mem_cons]
    exact ⟨⟨.objectType, rfl, rfl, rfl⟩, ⟨.phenomenon, rfl, rfl, rfl⟩, by simp⟩
  elements := by
    simp only [graph, mem_toArray, forall_mem_cons]
    exact ⟨⟨.variable, ⟨rfl, rfl, rfl⟩, by simp⟩, by simp⟩
  source   := by
    simp only [graph, mem_toArray, forall_mem_cons]
    exact ⟨⟨rfl, .objectType, rfl, rfl, rfl⟩, by simp⟩
  target   := by
    simp only [graph, mem_toArray, forall_mem_cons]
    exact ⟨⟨rfl, .phenomenon, rfl, rfl, rfl⟩, by simp⟩

theorem known_iff {name : String} {t : Term} :
    session.known[name]? = some t ↔ name = "1" ∧ t = .one := by
  by_cases h : name = "1"
  case pos => simp [session, h, Session.known_know, eq_comm]
  case neg => simp [session, h, Session.known_know_of_ne]

theorem session_typed : session.Typed where
  graph := graph_sound
  one   := known_iff.mpr ⟨rfl, rfl⟩
  node _ _ _ hk := (known_iff.mp hk).right ▸ typeKind_one
  edge e he _ hk := by
    have hne : ∀ e ∈ graph.edges, e.name ≠ "1" := by decide
    exact absurd (known_iff.mp hk).left (hne e he)
  known _ _ hk := .inl ((known_iff.mp hk).right ▸ typeKind_one)

theorem knowledge_searches : knowledge.Searches fun _ => "sekse" where
  similar _     := rfl
  entries w m h := by
    simp only [Lexicon.text?, Assoc.get?, knowledge, find?_singleton] at h
    split at h
    case isTrue  => exact ⟨"geslacht", "Variable", .variable, (Option.some.inj h).symm, rfl⟩
    case isFalse => cases h

end Sexes

-- A word for the sex of persons is read, as many as there are words.
theorem sex_aligned_iff : Sexes.session.Typed ∧ (Sexes.knowledge.Searches fun _ => "sekse") ∧
    ∃ r s' ps, (readTokens Sexes.knowledge ["seks"] [.nothing] ["<unk>"]).Gives Sexes.session r s' ∧
      ReadByPlace Sexes.knowledge (fun _ => "sekse") s' ["seks"] [.nothing] ["<unk>"] r ps ∧
      r.tokens.length = 1 ∧ r.synonyms.length = 1 ∧ r.meanings.length = 1 ∧
      (r.keywords.length = 1 ↔ ∀ p ∈ ps, ¬p.Late) :=
  ⟨Sexes.session_typed, Sexes.knowledge_searches,
    readTokens_aligned_iff Sexes.session_typed Sexes.knowledge_searches rfl rfl (by simp)⟩

end Words
end Inquiry
