import Mathlib
import Inquiry.Proofs.Session.Keeping

/-!
What has been recalled stays recalled, on whatever graph. Paths that were told once are told again,
and telling them again changes nothing.
-/

namespace Inquiry

namespace Session

variable {s s' s'' s₁ : Session} {name : String} {k : Term}

-- A later state of a session: terms have been numbered and more is known, and nothing else has
-- changed.
structure Follows (s s' : Session) : Prop where
  known : ∀ (name : String) k, s.known[name]? = some k → s'.known[name]? = some k
  rest  : s' = { s with next := s'.next, known := s'.known }

theorem Follows.refl (s : Session) : s.Follows s :=
  ⟨fun _ _ h => h, rfl⟩

theorem Follows.trans (h : s.Follows s') (h' : s'.Follows s'') : s.Follows s'' where
  known name k hk := h'.known name k (h.known name k hk)
  rest            := by rw [h'.rest, h.rest]

theorem Follows.numbered (h : s.Follows s') : s.Follows s'.numbered where
  known := h.known
  rest  := by
    rw [h.rest]
    rfl

-- What was not known at first may become known, or be known anew.
theorem Follows.know (h : s.Follows s') (hu : s.known[name]? = none) (k : Term) :
    s.Follows (s'.know name k) where
  known name' k' hk' := by
    have hne : name' ≠ name := by
      rintro rfl
      simp [hu] at hk'
    rw [known_know_of_ne s' k hne, h.known name' k' hk']
  rest := by
    rw [h.rest]
    rfl

theorem Follows.unknown (h : s.Follows s') (hu : s'.known[name]? = none) :
    s.known[name]? = none := by
  cases hk : s.known[name]?
  case none   => rfl
  case some k => simp [h.known name k hk] at hu

theorem Follows.graph_eq (h : s.Follows s') : s'.graph = s.graph := by
  rw [h.rest]

end Session

namespace SessionM

open Session

variable {s₀ s s' : Session} {k : Term}

-- The state `s₀` is where recalling began: what is recalled for an end may take the name that the
-- record has, but that name was not known in `s₀`.
theorem keeps_follows_restore (e : Record) : Keeps s₀.Follows (restore e) fun _ => True := by
  have known {s : Session} {name : String} (hs : s₀.Follows s) (hu : s.known[name]? = none)
      (k : Term) :
      Keeps s₀.Follows (do SessionM.know name k; return k : SessionM Term) fun _ => True :=
    (keeps_modify fun _ hs' => hs'.know (hs.unknown hu) k).bind fun _ _ => keeps_done
  refine keeps_restore_of (fun s name hs hu => known hs hu .nothing) (fun s name spec hs hu => ?_) e
  exact (keeps_make (fun _ hs' => hs'.numbered) spec).bind fun k _ => known hs hu k

theorem known_of_restore {name : String} {sort altname article code : Option String}
    {domain codomain : Except Failure Record}
    (h : (restore (.mk (some name) sort altname article code domain codomain)).Gives s k s') :
    s'.known[name]? = some k := by
  have known {k' : Term} {s : Session}
      (h : (do SessionM.know name k'; return k' : SessionM Term).Gives s k s') :
      s'.known[name]? = some k := by
    obtain ⟨_, _, hk, h⟩ := gives_bind.mp h
    obtain rfl := gives_modify.mp hk
    obtain ⟨rfl, rfl⟩ := gives_pure.mp h
    exact known_know s name k'
  rw [restore.eq_def] at h
  dsimp only at h
  replace h := gives_get_bind.mp h
  split at h
  case h_1 k' hk =>
    obtain ⟨rfl, rfl⟩ := gives_pure.mp h
    exact hk
  case h_2 =>
    cases sort
    case none => exact absurd h gives_throw
    case some sort =>
      dsimp only at h
      split at h
      · exact known h
      · split at h
        · split at h
          · obtain ⟨_, _, _, h⟩ := gives_bind.mp h
            exact known h
          · exact known h
        · obtain ⟨_, _, _, h⟩ := gives_bind.mp h
          obtain ⟨_, _, _, h⟩ := gives_bind.mp h
          split at h
          · obtain ⟨_, _, _, h⟩ := gives_bind.mp h
            exact known h
          · exact known h

-- What the action has given once it gives again later, and then nothing changes.
def Settles (x : SessionM α) : Prop :=
  ∀ s a s', x.Gives s a s' → s.Follows s' ∧ ∀ s'', s'.Follows s'' → x.Gives s'' a s''

section Settles

variable {x : SessionM α} {f : α → SessionM β}

theorem settles_pure {a : α} : (pure a : SessionM α).Settles := by
  intro s a' s' h
  obtain ⟨rfl, rfl⟩ := gives_pure.mp h
  exact ⟨.refl s, fun s'' _ => gives_done⟩

theorem settles_ofExcept {e : Except Failure α} : (ofExcept e : SessionM α).Settles := by
  intro s a s' h
  obtain ⟨rfl, rfl⟩ := gives_ofExcept.mp h
  exact ⟨.refl s, fun s'' _ => gives_ofExcept.mpr ⟨rfl, rfl⟩⟩

theorem Settles.bind (hx : x.Settles) (hf : ∀ a, (f a).Settles) : (x >>= f).Settles := by
  intro s b s' h
  obtain ⟨a, s₁, ha, hb⟩ := gives_bind.mp h
  have ⟨hs₁, again⟩ := hx s a s₁ ha
  have ⟨hs', again'⟩ := hf a s₁ b s' hb
  exact ⟨hs₁.trans hs', fun s'' hs'' => (again s'' (hs'.trans hs'')).bind (again' s'' hs'')⟩

theorem settles_mapM {as : List α} (h : ∀ a ∈ as, (f a).Settles) : (as.mapM f).Settles := by
  induction as
  case nil => exact settles_pure
  case cons a as ih =>
    have ⟨ha, has⟩ := List.forall_mem_cons.mp h
    rw [List.mapM_cons]
    exact ha.bind fun _ => (ih has).bind fun _ => settles_pure

theorem settles_get {g : Session → α} (hx : ∀ c, (f c).Settles)
    (hg : ∀ s s', s.Follows s' → g s' = g s) : (do f (g (← get)) : SessionM β).Settles := by
  intro s b s' h
  obtain ⟨_, _, hs, h⟩ := gives_bind.mp h
  obtain ⟨rfl, rfl⟩ := gives_get.mp hs
  have ⟨hs', again⟩ := hx (g s) s b s' h
  refine ⟨hs', fun s'' hs'' => gives_get_bind.mpr ?_⟩
  rw [hg s s'' (hs'.trans hs'')]
  exact again s'' hs''

end Settles

theorem settles_restore_edge (e : Edge) : (restore (.ofEdge e)).Settles := by
  intro s k s' h
  refine ⟨(keeps_follows_restore (.ofEdge e)).gives (.refl s) h, fun s'' hs'' => ?_⟩
  exact restore_of_known (hs''.known _ _ (known_of_restore h))

theorem settles_pathsNamed (a b : String) : (pathsNamed a b).Settles :=
  settles_get (g := fun s => s.graph.trails a b)
    (fun _ => settles_mapM fun _ _ => (settles_mapM fun e _ => settles_restore_edge e).bind
      fun _ => settles_pure)
    fun s s' hs => by rw [hs.graph_eq]

theorem settles_paths (t u : Term) : (paths t u).Settles := by
  rw [paths.eq_def]
  split
  case h_1 | h_2 => exact settles_pure
  case h_3       => exact settles_pathsNamed _ _

end SessionM
end Inquiry
