import Mathlib
import Inquiry.Session.Basic

/-!
What an action gives when it succeeds. A run of several actions is taken apart into the runs of its
parts; failures do not occur in it.
-/

namespace Inquiry

open List Sequence

@[simp]
theorem ok_bind (a : α) (f : α → Except ε β) : (.ok a >>= f) = f a := rfl

section

variable {xs : List α} {ys : List β} {f : α → Except ε β}

theorem bind_eq_ok {x : Except ε α} {b : β} : (x >>= f) = .ok b ↔ ∃ a, x = .ok a ∧ f a = .ok b := by
  cases x <;> simp [bind, Except.bind]

@[simp]
theorem pure_eq_ok {a b : α} : (pure a : Except ε α) = .ok b ↔ a = b := by
  simp [pure, Except.pure]

@[simp]
theorem throw_ne_ok {e : ε} {b : α} : ¬(throw e : Except ε α) = .ok b := by
  simp [throw, throwThe, MonadExceptOf.throw]

theorem map_eq_ok {x : Except ε α} {f : α → β} {b : β} :
    (f <$> x) = .ok b ↔ ∃ a, x = .ok a ∧ f a = b := by
  cases x <;> simp [Functor.map, Except.map]

theorem mapM_eq_ok : xs.mapM f = .ok ys ↔ Forall₂ (fun x y => f x = .ok y) xs ys := by
  induction xs generalizing ys
  case nil => cases ys <;> simp
  case cons x xs ih =>
    simp only [mapM_cons, bind_eq_ok, pure_eq_ok, ih, forall₂_cons_left_iff]
    constructor
    · rintro ⟨y, hy, ys, hys, rfl⟩
      exact ⟨y, ys, hy, hys, rfl⟩
    · rintro ⟨y, ys, hy, hys, rfl⟩
      exact ⟨y, hy, ys, hys, rfl⟩

theorem mapM_eq_some {f : α → Option β} :
    xs.mapM f = some ys ↔ Forall₂ (fun x y => f x = some y) xs ys := by
  induction xs generalizing ys
  case nil => cases ys <;> simp
  case cons x xs ih =>
    simp only [mapM_cons, Option.bind_eq_bind, Option.bind_eq_some_iff, Option.pure_def,
      Option.some.injEq, ih, forall₂_cons_left_iff]
    constructor
    · rintro ⟨y, hy, ys, hys, rfl⟩
      exact ⟨y, ys, hy, hys, rfl⟩
    · rintro ⟨y, ys, hy, hys, rfl⟩
      exact ⟨y, hy, ys, hys, rfl⟩

theorem map_eq_map_of_forall₂ {R : α → β → Prop} {f : α → γ} {g : β → γ} (h : Forall₂ R xs ys)
    (hfg : ∀ x y, R x y → f x = g y) : xs.map f = ys.map g := by
  induction h
  case nil          => rfl
  case cons hr _ ih => simp [hfg _ _ hr, ih]

theorem exists_of_mem_right {R : α → β → Prop} {y : β} (h : Forall₂ R xs ys) (hy : y ∈ ys) :
    ∃ x ∈ xs, R x y := by
  induction h
  case nil => simp at hy
  case cons hr _ ih =>
    cases mem_cons.mp hy
    case inl hy => exact ⟨_, by simp, hy ▸ hr⟩
    case inr hy =>
      have ⟨x, hx, hr⟩ := ih hy
      exact ⟨x, by simp [hx], hr⟩

theorem mapM_eq_map {g : α → β} (hg : ∀ x y, f x = .ok y → y = g x) (h : xs.mapM f = .ok ys) :
    ys = xs.map g := by
  have h := map_eq_map_of_forall₂ (mapM_eq_ok.mp h) (f := g) (g := id) fun x y hy => (hg x y hy).symm
  simpa using h.symm

theorem allM_eq_true {f : α → Except ε Bool} {as : List α} (h : as.allM f = .ok true) :
    ∀ a ∈ as, f a = .ok true := by
  induction as
  case nil => simp
  case cons a as ih =>
    simp only [List.allM, bind_eq_ok] at h
    have ⟨r, hr, h⟩ := h
    cases r <;> simp at h
    exact forall_mem_cons.mpr ⟨hr, ih h⟩

theorem exists_of_anyM {f : α → Except ε Bool} {as : List α} (h : as.anyM f = .ok true) :
    ∃ a ∈ as, f a = .ok true := by
  induction as
  case nil => cases h
  case cons a as ih =>
    rw [List.anyM] at h
    obtain ⟨found, hf, h⟩ := bind_eq_ok.mp h
    cases found
    case true => exact ⟨a, by simp, hf⟩
    case false =>
      obtain ⟨c, hc, hfc⟩ := ih h
      exact ⟨c, by simp [hc], hfc⟩

theorem Sequence.get_natCast {i : Nat} {x : α} (h : xs[i]? = some x) :
    get xs (i : Int) = .ok x := by
  obtain ⟨hi, rfl⟩ := List.getElem?_eq_some_iff.mp h
  simp [get, at?, place?, hi]

theorem Sequence.getElem?_of_get {i : Nat} {x : α} (h : get xs (i : Int) = .ok x) :
    xs[i]? = some x := by
  by_cases hi : i < xs.length
  case pos => simpa [get, at?, place?, hi] using h
  case neg => simp [get, at?, place?, hi] at h

end

-- The action succeeds in `s`, gives `a` and leaves `s'`.
def Runs (x : ExceptT ε (StateM σ) α) (s : σ) (a : α) (s' : σ) : Prop :=
  (ExceptT.run x).run s = (.ok a, s')

namespace Runs

variable {x : ExceptT ε (StateM σ) α} {f : α → ExceptT ε (StateM σ) β} {s s' s'' : σ} {a : α} {b : β}

theorem bind (h : Runs x s a s') (h' : Runs (f a) s' b s'') : Runs (x >>= f) s b s'' := by
  simp only [Runs, ExceptT.run_bind, StateT.run_bind] at h ⊢
  rw [h]
  exact h'

theorem of_bind (h : Runs (x >>= f) s b s'') : ∃ a s', Runs x s a s' ∧ Runs (f a) s' b s'' := by
  simp only [Runs, ExceptT.run_bind, StateT.run_bind] at h ⊢
  rcases hx : StateT.run (ExceptT.run x) s with ⟨_ | a, s'⟩ <;> rw [hx] at h
  · cases h
  · exact ⟨a, s', rfl, h⟩

theorem pure : Runs (Pure.pure a : ExceptT ε (StateM σ) α) s a s := rfl

theorem get : Runs (MonadState.get : ExceptT ε (StateM σ) σ) s s s := rfl

theorem set : Runs (MonadStateOf.set s' : ExceptT ε (StateM σ) PUnit) s ⟨⟩ s' := rfl

theorem modify {g : σ → σ} : Runs (modify g : ExceptT ε (StateM σ) PUnit) s ⟨⟩ (g s) := rfl

theorem ofExcept {e : Except ε α} (h : e = .ok a) :
    Runs (ofExcept e : ExceptT ε (StateM σ) α) s a s := by
  subst h
  rfl

@[simp]
theorem pure_iff {a' : α} :
    Runs (Pure.pure a : ExceptT ε (StateM σ) α) s a' s' ↔ a = a' ∧ s = s' := by
  change ((Except.ok a, s) : Except ε α × σ) = _ ↔ _
  simp

@[simp]
theorem not_throw {e : ε} : ¬Runs (throw e : ExceptT ε (StateM σ) α) s a s' := by
  change ¬((Except.error e, s) : Except ε α × σ) = _
  simp

end Runs

namespace SessionM

def Gives (x : SessionM α) (s : Session) (a : α) (s' : Session) : Prop :=
  x.runIn s = (.ok a, s')

theorem runIn_bind (x : SessionM α) (f : α → SessionM β) (s : Session) :
    (x >>= f).runIn s =
      match x.runIn s with
      | (.ok a, s')    => (f a).runIn s'
      | (.error e, s') => (.error e, s') := by
  simp only [runIn, ExceptT.run_bind, StateT.run_bind]
  cases StateT.run (ExceptT.run x) s
  case mk r _ => cases r <;> rfl

variable {x : SessionM α} {f : α → SessionM β} {s s' s'' : Session} {a : α} {b : β}
  {as : List α} {g : α → β} {R : α → β → Prop}

theorem gives_bind : (x >>= f).Gives s b s'' ↔ ∃ a s', x.Gives s a s' ∧ (f a).Gives s' b s'' := by
  simp only [Gives, runIn_bind]
  rcases x.runIn s with ⟨_ | a, s'⟩ <;> simp [and_assoc]

theorem Gives.bind (h : x.Gives s a s') (h' : (f a).Gives s' b s'') : (x >>= f).Gives s b s'' :=
  gives_bind.mpr ⟨a, s', h, h'⟩

theorem Gives.unique {a' : α} (h : x.Gives s a s') (h' : x.Gives s a' s'') : a = a' ∧ s' = s'' := by
  have he : (Except.ok a, s') = (Except.ok a', s'') := h.symm.trans h'
  simpa using he

theorem Gives.bind_iff (h : x.Gives s a s') : (x >>= f).Gives s b s'' ↔ (f a).Gives s' b s'' := by
  rw [Gives] at h
  simp only [Gives, runIn_bind, h]

@[simp]
theorem gives_pure {a' : α} : (pure a : SessionM α).Gives s a' s' ↔ a = a' ∧ s = s' := by
  change ((Except.ok a, s) : Except Failure α × Session) = _ ↔ _
  simp

@[simp]
theorem gives_throw {e : Failure} : ¬(throw e : SessionM α).Gives s a s' := by
  change ¬((Except.error e, s) : Except Failure α × Session) = _
  simp

@[simp]
theorem gives_ofExcept {e : Except Failure α} :
    (ofExcept e : SessionM α).Gives s a s' ↔ e = .ok a ∧ s = s' := by
  cases e <;> simp [ofExcept]

@[simp]
theorem gives_get {t : Session} : (get : SessionM Session).Gives s t s' ↔ s = t ∧ s = s' := by
  change ((Except.ok s, s) : Except Failure Session × Session) = _ ↔ _
  simp

theorem gives_done : (pure a : SessionM α).Gives s a s :=
  gives_pure.mpr ⟨rfl, rfl⟩

theorem Gives.ofExcept_bind {e : Except Failure α} (he : e = .ok a) (h : (f a).Gives s b s') :
    (ofExcept e >>= f).Gives s b s' :=
  Gives.bind (gives_ofExcept.mpr ⟨he, rfl⟩) h

theorem gives_get_bind {f : Session → SessionM β} :
    (get >>= f).Gives s b s' ↔ (f s).Gives s b s' := by
  simp [gives_bind]

theorem gives_ofExcept_bind_iff {e : Except Failure α} :
    (ofExcept e >>= f).Gives s b s' ↔ ∃ a, e = .ok a ∧ (f a).Gives s b s' := by
  simp [gives_bind]

theorem gives_bind_pure :
    (x >>= fun a => pure (g a)).Gives s b s' ↔ ∃ a, x.Gives s a s' ∧ g a = b := by
  simp [gives_bind, -bind_pure_comp]

@[simp]
theorem gives_modify {g : Session → Session} {u : PUnit} :
    (modify g : SessionM PUnit).Gives s u s' ↔ g s = s' := by
  change ((Except.ok ⟨⟩, g s) : Except Failure PUnit × Session) = _ ↔ _
  simp

@[simp]
theorem gives_modifyGet {g : Session → α × Session} :
    (modifyGet g : SessionM α).Gives s a s' ↔ g s = (a, s') := by
  change ((Except.ok (g s).1, (g s).2) : Except Failure α × Session) = _ ↔ _
  rcases g s with ⟨a, s⟩
  simp

theorem gives_map : (g <$> x).Gives s b s' ↔ ∃ a, x.Gives s a s' ∧ g a = b := by
  rw [map_eq_pure_bind]
  exact gives_bind_pure

theorem Gives.map (h : x.Gives s a s') : (g <$> x).Gives s (g a) s' :=
  gives_map.mpr ⟨a, h, rfl⟩

theorem gives_mapM_nil : (List.mapM f []).Gives s [] s :=
  gives_done

theorem Gives.mapM_cons {bs : List β} (h : (f a).Gives s b s') (h' : (as.mapM f).Gives s' bs s'') :
    ((a :: as).mapM f).Gives s (b :: bs) s'' := by
  rw [List.mapM_cons]
  exact Gives.bind h (Gives.bind h' gives_done)

theorem exists_mapM_forall₂ {I : Session → Prop}
    (h : ∀ a ∈ as, ∀ s, I s → ∃ b s', (f a).Gives s b s' ∧ I s' ∧ R a b) (hs : I s) :
    ∃ bs s', (as.mapM f).Gives s bs s' ∧ I s' ∧ Forall₂ R as bs := by
  induction as generalizing s
  case nil => exact ⟨[], s, gives_mapM_nil, hs, .nil⟩
  case cons a as ih =>
    obtain ⟨ha, has⟩ := forall_mem_cons.mp h
    obtain ⟨b, s₁, hb, hs₁, hr⟩ := ha s hs
    obtain ⟨bs, s₂, hbs, hs₂, hrs⟩ := ih has hs₁
    exact ⟨b :: bs, s₂, hb.mapM_cons hbs, hs₂, .cons hr hrs⟩

theorem exists_mapM {I : Session → Prop}
    (h : ∀ a ∈ as, ∀ s, I s → ∃ b s', (f a).Gives s b s' ∧ I s') (hs : I s) :
    ∃ bs s', (as.mapM f).Gives s bs s' ∧ I s' := by
  obtain ⟨bs, s', hbs, hs', _⟩ := exists_mapM_forall₂ (R := fun _ _ => True)
    (fun a ha s hs => by simpa using h a ha s hs) hs
  exact ⟨bs, s', hbs, hs'⟩

theorem Gives.mapM_forall₂ {bs : List β} (h : (as.mapM f).Gives s bs s')
    (hf : ∀ a ∈ as, ∀ b s s', (f a).Gives s b s' → R a b) : Forall₂ R as bs := by
  induction as generalizing s s' bs
  case nil =>
    obtain ⟨rfl, _⟩ := gives_pure.mp h
    exact .nil
  case cons a as ih =>
    obtain ⟨ha, has⟩ := forall_mem_cons.mp hf
    rw [List.mapM_cons] at h
    obtain ⟨b, s₁, hb, h⟩ := gives_bind.mp h
    obtain ⟨bs', hbs, rfl⟩ := gives_bind_pure.mp h
    exact .cons (ha b s s₁ hb) (ih hbs has)

theorem exists_foldlM {f : β → α → SessionM β} {J : List α → Session → β → Prop} (hb : J [] s b)
    (step : ∀ done a rest s₁ b₁, as = done ++ a :: rest → (done.foldlM f b).Gives s b₁ s₁ →
      J done s₁ b₁ → ∃ b₂ s₂, (f b₁ a).Gives s₁ b₂ s₂ ∧ J (done ++ [a]) s₂ b₂) :
    ∃ b' s', (as.foldlM f b).Gives s b' s' ∧ J as s' b' := by
  induction as using List.reverseRecOn
  case nil => exact ⟨b, s, gives_done, hb⟩
  case append_singleton as a ih =>
    have ⟨b₁, s₁, h₁, hj₁⟩ := ih fun done a' rest s₁ b₁ he =>
      step done a' (rest ++ [a]) s₁ b₁ (by simp [he])
    have ⟨b₂, s₂, h₂, hj₂⟩ := step as a [] s₁ b₁ rfl h₁ hj₁
    refine ⟨b₂, s₂, ?_, hj₂⟩
    rw [foldlM_append]
    exact h₁.bind (Gives.bind h₂ gives_done)

theorem Gives.foldlM {f : β → α → SessionM β} {J : List α → Session → β → Prop} {b' : β}
    (h : (as.foldlM f b).Gives s b' s') (hb : J [] s b)
    (step : ∀ done a rest s b b' s', as = done ++ a :: rest → J done s b → (f b a).Gives s b' s' →
      J (done ++ [a]) s' b') : J as s' b' := by
  suffices hr : ∀ rest done s b, as = done ++ rest → (rest.foldlM f b).Gives s b' s' →
      J done s b → J as s' b' from hr as [] s b rfl h hb
  intro rest
  induction rest
  case nil =>
    intro done s b he h hb
    obtain ⟨rfl, rfl⟩ := gives_pure.mp h
    simpa [he] using hb
  case cons a rest ih =>
    intro done s b he h hb
    obtain ⟨c, s₁, hc, h⟩ := gives_bind.mp h
    exact ih (done ++ [a]) s₁ c (by simpa using he) h (step done a rest s b c s₁ he hb hc)

theorem runIn_tryCatch (x : SessionM α) (handle : Failure → SessionM α) (s : Session) :
    (tryCatch x handle : SessionM α).runIn s = match x.runIn s with
      | (.ok a, s')    => (.ok a, s')
      | (.error e, s') => (handle e).runIn s' := by
  change runIn (ExceptT.tryCatch x handle) s = _
  simp only [runIn, ExceptT.run, ExceptT.tryCatch, ExceptT.mk, StateT.run_bind]
  rcases StateT.run x s with ⟨_ | _, _⟩ <;> rfl

theorem Gives.tryCatch {handle : Failure → SessionM α} (h : x.Gives s a s') :
    (tryCatch x handle).Gives s a s' := by
  rw [Gives] at h ⊢
  rw [runIn_tryCatch, h]

-- The action fails in `s` with `e`, and leaves `s'`.
def Fails (x : SessionM α) (s : Session) (e : Failure) (s' : Session) : Prop :=
  x.runIn s = (.error e, s')

variable {e : Failure}

theorem Fails.bind (h : x.Fails s e s') : (x >>= f).Fails s e s' := by
  rw [Fails] at h ⊢
  rw [runIn_bind, h]

theorem Gives.bind_fails (h : x.Gives s a s') (h' : (f a).Fails s' e s'') :
    (x >>= f).Fails s e s'' := by
  rw [Gives] at h
  rw [Fails, runIn_bind, h]
  exact h'

theorem fails_ofExcept {y : Except Failure α} (h : y = .error e) :
    (ofExcept y : SessionM α).Fails s e s := by
  subst h
  rfl

theorem Fails.map (h : x.Fails s e s') : (g <$> x).Fails s e s' := by
  rw [← bind_pure_comp]
  exact h.bind

theorem Fails.tryCatch {handle : Failure → SessionM α} (h : x.Fails s e s')
    (h' : (handle e).Gives s' a s'') : (tryCatch x handle).Gives s a s'' := by
  rw [Fails] at h
  rw [Gives, runIn_tryCatch, h]
  exact h'

-- Wherever the action is run, it succeeds and gives something with a property.
def Makes (x : SessionM α) (P : α → Prop) : Prop :=
  ∀ s, ∃ a s', x.Gives s a s' ∧ P a

variable {P : α → Prop} {Q : β → Prop}

theorem makes_pure (h : P a) : (pure a : SessionM α).Makes P :=
  fun s => ⟨a, s, gives_done, h⟩

theorem makes_ofExcept {e : Except Failure α} (he : e = .ok a) (h : P a) :
    (ofExcept e : SessionM α).Makes P :=
  fun s => ⟨a, s, gives_ofExcept.mpr ⟨he, rfl⟩, h⟩

theorem makes_modify {g : Session → Session} : (modify g : SessionM PUnit).Makes fun _ => True :=
  fun s => ⟨⟨⟩, g s, gives_modify.mpr rfl, trivial⟩

theorem makes_modifyGet {g : Session → α × Session} (h : ∀ s, P (g s).1) :
    (modifyGet g : SessionM α).Makes P :=
  fun s => ⟨(g s).1, (g s).2, gives_modifyGet.mpr rfl, h s⟩

theorem Makes.bind (h : x.Makes P) (h' : ∀ a, P a → (f a).Makes Q) : (x >>= f).Makes Q := by
  intro s
  have ⟨a, s', ha, hp⟩ := h s
  have ⟨b, s'', hb, hq⟩ := h' a hp s'
  exact ⟨b, s'', ha.bind hb, hq⟩

theorem Makes.imp {P' : α → Prop} (h : x.Makes P) (h' : ∀ a, P a → P' a) : x.Makes P' := by
  intro s
  have ⟨a, s', ha, hp⟩ := h s
  exact ⟨a, s', ha, h' a hp⟩

theorem Makes.ofExcept_bind {e : Except Failure α} (he : e = .ok a) (h : (f a).Makes Q) :
    (ofExcept e >>= f : SessionM β).Makes Q :=
  (makes_ofExcept (P := (· = a)) he rfl).bind fun _ ha => ha ▸ h

theorem Makes.map (h : x.Makes P) (h' : ∀ a, P a → Q (g a)) : (g <$> x).Makes Q := by
  intro s
  have ⟨a, s', ha, hp⟩ := h s
  exact ⟨g a, s', ha.map, h' a hp⟩

theorem makes_mapM (h : ∀ a ∈ as, (f a).Makes (R a)) : (as.mapM f).Makes (Forall₂ R as) := by
  induction as
  case nil => exact makes_pure .nil
  case cons a as ih =>
    rw [mapM_cons]
    have ⟨ha, has⟩ := forall_mem_cons.mp h
    exact ha.bind fun b hb => (ih has).bind fun bs hbs => makes_pure (.cons hb hbs)

theorem exists_gives_of_any {x : SessionM α} {P : α → Bool} (h : (x.runIn s).1.toOption.any P) :
    ∃ a s', x.Gives s a s' ∧ P a := by
  rcases hx : x.runIn s with ⟨e | a, s'⟩
  · simp [hx, Except.toOption] at h
  · exact ⟨a, s', hx, by simpa [hx, Except.toOption] using h⟩

end SessionM
end Inquiry
