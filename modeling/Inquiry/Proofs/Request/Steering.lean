import Mathlib
import Inquiry.Proofs.Kind.Making
import Inquiry.Proofs.Session.Keeping
import Inquiry.Proofs.Term.Indistinct
import Inquiry.Request.Interpret

/-!
What reading a request leaves alone. Terms are numbered and kinds become known; nothing else of a
session changes, in whatever state it is.
-/

namespace Inquiry

open Term SessionM Request

-- One term stands for itself, and several are put together.
def Term.Joins (op : Op) : List Term → Term → Prop
  | [], t  => t = .nothing
  | [u], t => t = u
  | ts, t  => ∃ n ty, t = .app n op ts ty

-- As `Joins`, where what is put together has the type that the operation gives it.
def Term.Applied (op : Op) : List Term → Term → Prop
  | [], t  => t = .nothing
  | [u], t => t = u
  | ts, t  => ∃ n, apply n op ts = .ok t

theorem Term.Applied.joins {op : Op} {ts : List Term} {t : Term} (h : Applied op ts t) :
    Joins op ts t := by
  rcases ts with _ | ⟨_, _ | ⟨_, _⟩⟩
  case nil            => exact h
  case cons.nil       => exact h
  case cons.cons =>
    obtain ⟨n, h⟩ := h
    obtain ⟨_, ty, _, h⟩ := apply_eq_ok.mp h
    exact ⟨n, ty, h⟩

theorem SessionM.keeps_joined {I : Session → Prop} (hI : ∀ s, I s → I s.numbered) (op : Op)
    (ts : List Term) : Keeps I (joined op ts) (Term.Applied op ts) := by
  rw [joined.eq_def]
  rcases ts with _ | ⟨_, _ | ⟨_, _⟩⟩
  case nil       => exact keeps_pure rfl
  case cons.nil  => exact keeps_pure rfl
  case cons.cons => exact keeps_app hI op _

theorem SessionM.keeps_asKind {I : Session → Prop} (t : Term) :
    Keeps I (asKind t) fun _ => True := by
  rw [asKind.eq_def]
  split
  case h_1 | h_2 => exact keeps_done
  case h_3       => exact keeps_throw

-- A property that a session keeps when terms are numbered, and when a kind that has just been made
-- becomes known, or a name that has no kind.
structure Session.Steers (I : Session → Prop) : Prop where
  numbered : ∀ s, I s → I s.numbered
  missing  : ∀ s name, I s → I (s.know name .nothing)
  new      : ∀ s name k, I s → k.serial? = some s.next → I (s.numbered.know name k)

namespace Request

def turned (pivot target u : Term) (ps : List Path) : SessionM (Term × List Path) :=
  match u with
  | .nothing => return (.nothing, ps)
  | u => if pivot == target then return (u, ps) else return (← invert [u], ps)

def brokenDown (pivot target selection : Term) (ps led : List Path) :
    SessionM (Term × List Path) := do
  let t ← selected (led ++ ps)
  let u ← match t, selection with
    | .nothing, s => pure s
    | t, .nothing => pure t
    | t, s        => compose [t, s]
  turned pivot target u ps

-- What a total goes over: `w` without dimensions, the breakdown `k` if this is the only dimension,
-- and else the parts of it behind the first `i`.
def overDimensions (w k : Term) (ps : List Path) (i : Nat) (f : Option Term → SessionM α) :
    SessionM α :=
  if ps.isEmpty || ps == [[]] then pure (some w) >>= f
  else if i == 0 && ps.length == 1 then pure (some k) >>= f
  else partsFrom k ps (i + 1) >>= fun
    | some zs => do
      let t ← pair zs
      let w? ← pure (some t)
      f w?
    | none => pure none >>= f

-- How a total ends: `v` is aggregated over the dimensions, if there is something to go over.
def aggregated (v z : Term) (ps : List Path) (w? : Option Term) : SessionM (Term × List Path) :=
  match w?, z with
  | none, _ => return (.nothing, ps)
  | some w, .nothing => return (← aggregate [v, w], ps)
  | some w, z => do
    if ← ofExcept do (← v.dom).isEqualTo (← z.cod) then
      return (← aggregate [← compose [v, z], w], ps)
    else return (.nothing, ps)

end Request

namespace Session.Steers

open SessionM

variable {I : Session → Prop} (hI : Steers I)
include hI

theorem keeps_app (op : Op) (ts : List Term) :
    Keeps I (app op ts) fun t => ∃ n ty, t = .app n op ts ty :=
  (SessionM.keeps_app hI.numbered op ts).imp fun _ ⟨n, ht⟩ =>
    have ⟨_, ty, _, h⟩ := apply_eq_ok.mp ht
    ⟨n, ty, h⟩

theorem keeps_joined (op : Op) (ts : List Term) : Keeps I (joined op ts) (Term.Joins op ts) :=
  (SessionM.keeps_joined hI.numbered op ts).imp fun _ h => h.joins

theorem keeps_compose (ts : List Term) : Keeps I (compose ts) (Term.Joins .composition ts) :=
  hI.keeps_joined _ ts

theorem keeps_pair (ts : List Term) : Keeps I (pair ts) (Term.Joins .product ts) :=
  hI.keeps_joined _ ts

theorem keeps_aggregate (v w : Term) :
    Keeps I (aggregate [v, w]) fun t => ∃ n ty, t = .app n .aggregation [v, w] ty :=
  hI.keeps_app .aggregation [v, w]

theorem keeps_projection (ts : List Term) : Keeps I (projection ts) fun _ => True :=
  .ite (fun _ => keeps_done) fun _ => (hI.keeps_app _ ts).any

theorem keeps_invert (ts : List Term) : Keeps I (invert ts) fun _ => True :=
  .ite (fun _ => keeps_done) fun _ => (hI.keeps_app _ ts).any

theorem keeps_restrict (ts : List Term) : Keeps I (restrict ts) fun _ => True :=
  .ite (fun _ => keeps_done) fun _ => (hI.keeps_app _ ts).any

theorem keeps_make (spec : KindSpec) : Keeps I (make spec) fun _ => True :=
  SessionM.keeps_make hI.numbered spec

theorem keeps_missing (name : String) :
    Keeps I (do SessionM.know name .nothing; return Term.nothing) fun _ => True :=
  (keeps_modify fun s => hI.missing s name).bind fun _ _ => keeps_done

theorem keeps_new {f : Term → SessionM α} {P : α → Prop} (name : String) (spec : KindSpec)
    (h : ∀ k, Keeps I (f k) P) : Keeps I (do let k ← make spec; SessionM.know name k; f k) P := by
  intro s hs
  have hm : (make spec).runIn s = (make s.next spec, s.numbered) := by
    change (ofExcept (make s.next spec) : SessionM Term).runIn s.numbered = _
    cases make s.next spec <;> rfl
  rw [runIn_bind, hm]
  cases hk : make s.next spec
  case error e => exact ⟨hI.numbered s hs, by simp⟩
  case ok k    => exact h k _ (hI.new s name k hs (make_eq_ok hk).right)

theorem keeps_restore (e : Record) : Keeps I (restore e) fun _ => True :=
  keeps_restore_of (fun _ name _ _ => hI.keeps_missing name)
    (fun _ name spec _ _ => hI.keeps_new name spec fun _ => keeps_done) e

theorem keeps_nodeKind (name : String) : Keeps I (nodeKind name) fun _ => True := by
  refine keeps_get.bind fun s _ => ?_
  split
  · exact hI.keeps_restore _
  · exact keeps_done

theorem keeps_edgeKind (name : String) : Keeps I (edgeKind name) fun _ => True := by
  refine keeps_get.bind fun s _ => ?_
  split
  · exact hI.keeps_restore _
  · exact keeps_done

theorem keeps_kindOfSort (name sort : String) : Keeps I (kindOfSort name sort) fun _ => True := by
  refine keeps_get.bind fun s _ => ?_
  split
  · exact keeps_done
  · split
    · exact keeps_throw
    · exact .ite (fun _ => hI.keeps_nodeKind name) fun _ => hI.keeps_edgeKind name

theorem keeps_kindNamed (name : String) : Keeps I (kindNamed name) fun _ => True := by
  refine keeps_get.bind fun s _ => ?_
  split
  · exact keeps_done
  · exact keeps_get.bind fun s _ =>
      .ite (fun _ => hI.keeps_nodeKind name) fun _ => hI.keeps_edgeKind name

theorem keeps_pathsNamed (a b : String) : Keeps I (pathsNamed a b) fun _ => True :=
  keeps_get.bind fun _ _ => keeps_mapM fun _ _ =>
    (keeps_mapM fun _ _ => hI.keeps_restore _).bind fun _ _ => keeps_done

theorem keeps_paths (t u : Term) : Keeps I (paths t u) fun _ => True := by
  rw [paths.eq_def]
  split
  case h_1 | h_2 => exact keeps_done
  case h_3       => exact hI.keeps_pathsNamed _ _

theorem keeps_reaches (t u : Term) : Keeps I (reaches t u) fun _ => True :=
  (hI.keeps_paths t u).bind fun _ _ => keeps_done

theorem keeps_commonOrigin (t u choice : Term) (os : List Term) :
    Keeps I (commonOrigin t u os choice) fun _ => True := by
  induction os generalizing choice
  case nil => exact keeps_done
  case cons o os ih =>
    rw [commonOrigin]
    refine (hI.keeps_reaches _ _).bind fun _ _ => ?_
    split
    · refine (hI.keeps_reaches _ _).bind fun _ _ => ?_
      split
      · refine (hI.keeps_reaches _ _).bind fun _ _ => ?_
        split
        · exact ih o
        · split
          · exact ih o
          · exact ih choice
      · exact ih choice
    · exact ih choice

theorem keeps_origin (t u : Term) : Keeps I (origin t u) fun _ => True := by
  rw [origin.eq_def]
  split
  · exact keeps_asKind _
  · refine (hI.keeps_reaches _ _).bind fun _ _ => ?_
    split
    · exact keeps_asKind _
    · refine (hI.keeps_reaches _ _).bind fun _ _ => ?_
      split
      · exact keeps_asKind _
      · split
        · exact keeps_asKind _
        · split
          · exact keeps_asKind _
          · exact keeps_get.bind fun s _ => hI.keeps_commonOrigin t u .nothing s.objectTypes

theorem keeps_bestPath {t u : Term} {clues : List Term} {hint : Path} :
    Keeps I (bestPath t u clues hint) fun _ => True :=
  (hI.keeps_paths t u).bind fun _ _ => keeps_get.bind fun _ _ => keeps_ofExcept

theorem keeps_part {t : Term} {n : Int} : Keeps I (part t n) fun _ => True := by
  refine keeps_ofExcept.bind fun c _ => ?_
  split
  · exact (hI.keeps_projection _).bind fun _ _ => (hI.keeps_compose _).any
  · exact keeps_done

theorem keeps_counting (p : Term) : Keeps I (counting p) fun _ => True := by
  refine keeps_ofExcept.bind fun name _ => (hI.keeps_kindOfSort _ _).bind fun k _ => ?_
  split
  · exact keeps_get.bind fun _ _ => hI.keeps_new _ _ fun _ => keeps_done
  · exact keeps_done

theorem keeps_together (p : Term) : Keeps I (together p) fun _ => True := by
  refine (hI.keeps_kindOfSort _ _).bind fun k _ => ?_
  split
  · exact hI.keeps_new _ _ fun _ => hI.keeps_make _
  · exact keeps_done

theorem keeps_extend (p : Path) : Keeps I (Path.extend p) fun _ => True := by
  rw [Path.extend.eq_def]
  split
  · exact keeps_done
  · split
    · exact keeps_done
    · refine .ite (fun _ => keeps_done) fun _ => keeps_get.bind fun s _ => ?_
      refine keeps_ofExcept.bind fun g _ => ?_
      split
      · exact (hI.keeps_pair _).bind fun _ _ => keeps_done
      · exact keeps_done

section Requests

variable (r : Request)

theorem keeps_widen (pivot : Term) (m : Meaning) :
    Keeps I (widen pivot m) fun _ => True := by
  refine .ite (fun _ => keeps_done) fun _ => keeps_get.bind fun s _ => ?_
  refine keeps_ofExcept.bind fun c _ => (hI.keeps_origin pivot c).bind fun o _ => ?_
  split <;> exact keeps_done

theorem keeps_pivot : Keeps I r.pivot fun _ => True :=
  (keeps_foldlM fun p m _ => hI.keeps_widen p m).bind fun _ _ => keeps_get.bind fun _ _ =>
    keeps_ofExcept.bind fun _ _ => keeps_done

theorem keeps_pathTo (clues : List Term) (target v : Term) :
    Keeps I (pathTo clues target v) fun p => ∃ p', p = v :: p' := by
  refine keeps_ofExcept.bind fun d _ => keeps_ofExcept.bind fun b _ => ?_
  split
  · exact keeps_pure ⟨_, rfl⟩
  · exact hI.keeps_bestPath.bind fun p _ => keeps_pure ⟨p, rfl⟩

theorem keeps_categoryPaths (target : Term) : Keeps I (r.categoryPaths target) fun _ => True :=
  keeps_ofExcept.bind fun clues _ => keeps_foldlM fun _ _ _ => keeps_ofExcept.bind fun _ _ =>
    (hI.keeps_pathTo clues target _).bind fun _ _ => keeps_done

theorem keeps_objectTypePaths (pivot target : Term) :
    Keeps I (r.objectTypePaths pivot target) fun _ => True := by
  refine keeps_ofExcept.bind fun clues _ => keeps_foldlM fun ps i _ => ?_
  refine keeps_ofExcept.bind fun m _ => keeps_ofExcept.bind fun b _ => ?_
  refine .ite (fun _ => keeps_done) fun _ => keeps_ofExcept.bind fun b' _ => ?_
  refine .ite (fun _ => keeps_done) fun _ => ?_
  exact hI.keeps_bestPath.bind fun _ _ => keeps_done

theorem keeps_share (cs : Request.Clues) (k : Nat) : Keeps I (r.share cs k) fun _ => True := by
  refine .ite (fun _ => keeps_done) fun _ => keeps_mapM fun e _ => ?_
  refine keeps_ofExcept.bind fun g _ => keeps_ofExcept.bind fun h _ => ?_
  refine .ite (fun _ => keeps_done) fun _ => (hI.keeps_reaches g h).bind fun b _ => ?_
  exact .ite (fun _ => keeps_done) fun _ => keeps_done

theorem keeps_clueMeanings (cs : Request.Clues) : Keeps I (r.clueMeanings cs) fun _ => True :=
  keeps_ofExcept.bind fun _ _ => keeps_ofExcept.bind fun _ _ =>
    (keeps_foldlM fun cs k _ => hI.keeps_share r cs k).bind fun _ _ => keeps_mapM fun _ _ =>
      keeps_ofExcept.bind fun _ _ => keeps_done

theorem keeps_constantPath (pivot target : Term) (hints : Assoc Int Path) (k : Int)
    (ms : List Meaning) : Keeps I (r.constantPath pivot target hints k ms) fun _ => True := by
  refine keeps_ofExcept.bind fun const _ => keeps_ofExcept.bind fun vs _ => ?_
  have rest (v : Term) (clues : List Term) (hint : Path) : Keeps I (do
      let dest ← ofExcept v.source
      return v :: (← bestPath pivot dest clues hint)) fun _ => True :=
    keeps_ofExcept.bind fun _ _ => hI.keeps_bestPath.bind fun _ _ => keeps_done
  obtain ⟨v, clues⟩ := vs
  dsimp only
  split
  · refine keeps_get.bind fun s _ => keeps_ofExcept.bind fun g _ => ?_
    split
    · exact keeps_done.bind fun v _ => rest v _ _
    · exact keeps_throw
  · exact keeps_done.bind fun v _ => rest v _ _

theorem keeps_constantPaths (pivot target : Term) (hints : Assoc Int Path) :
    Keeps I (r.constantPaths pivot target hints) fun _ => True :=
  (keeps_mapM fun _ _ => keeps_ofExcept.bind fun _ _ => keeps_done).bind fun cs _ =>
    (hI.keeps_clueMeanings r cs).bind fun _ _ => keeps_mapM fun e _ =>
      (hI.keeps_constantPath r pivot target hints e.1 e.2).bind fun _ _ => keeps_done

theorem keeps_selectionOf (ps : Assoc Int Path) (ms : List Meaning) (pivot : Term) :
    Keeps I (selectionOf ps ms pivot) fun _ => True := by
  refine (keeps_foldlM fun args e _ => ?_).bind fun _ _ => hI.keeps_restrict _
  refine keeps_ofExcept.bind fun first _ => keeps_ofExcept.bind fun o _ => ?_
  refine .ite (fun _ => ?_) fun _ => keeps_done
  exact keeps_ofExcept.bind fun _ _ => (hI.keeps_compose _).bind fun _ _ =>
    (hI.keeps_together pivot).bind fun _ _ => (hI.keeps_compose _).bind fun _ _ => keeps_ofExcept

theorem keeps_selection (pivot target : Term) : Keeps I (r.selection pivot target) fun _ => True :=
  (hI.keeps_constantPaths r pivot target []).bind fun _ _ => hI.keeps_selectionOf _ _ _

theorem keeps_dimensions (pivot target : Term) :
    Keeps I (r.dimensions pivot target) fun _ => True := by
  refine keeps_filterM fun e => keeps_ofExcept.bind fun d _ => keeps_ofExcept.bind fun b _ => ?_
  refine .ite (fun _ => keeps_done) fun _ => keeps_ofExcept.bind fun b' _ => ?_
  refine .ite (fun _ => keeps_done) fun _ => ?_
  exact (hI.keeps_reaches _ _).bind fun _ _ => keeps_done

theorem keeps_addDimension (pivot ignored : Term) (hints : Assoc Nat Path)
    (found : Request.DimensionPaths) (dim : Nat × Nat) :
    Keeps I (r.addDimension pivot ignored hints found dim) fun _ => True := by
  have rest (dest : Meaning) (clues : List Meaning) : Keeps I (do
      if dest == .term ignored then return { found with clues }
      let p ← bestPath pivot dest.asTerm (clues.map Meaning.asTerm)
        (dimensionHint hints dim.1)
      return { clues, paths := Path.insertWithoutPostfixes p found.paths,
               at_ := found.at_.put dim.1 p : Request.DimensionPaths }) fun _ => True :=
    .ite (fun _ => keeps_done) fun _ =>
      hI.keeps_bestPath.bind fun _ _ => keeps_done
  refine keeps_ofExcept.bind fun m _ => ?_
  dsimp only
  refine Keeps.bind_ite (P := fun _ => True) ?_ fun leading _ => keeps_ofExcept.bind fun k _ => ?_
  · exact .ite (fun _ => keeps_ofExcept.bind fun _ _ => keeps_done) fun _ => keeps_done
  refine .ite (fun _ => ?_) fun _ => keeps_ofExcept.bind fun g _ => ?_
  · exact keeps_done.bind fun x _ => rest x.1 x.2
  · exact keeps_done.bind fun x _ => rest x.1 x.2

theorem keeps_dimensionPaths (pivot target ignored : Term) (hints : Assoc Nat Path) :
    Keeps I (r.dimensionPaths pivot target ignored hints) fun _ => True :=
  (hI.keeps_dimensions r pivot target).bind fun _ _ => keeps_ofExcept.bind fun _ _ =>
    (keeps_foldlM fun found dim _ => hI.keeps_addDimension r pivot ignored hints found dim).bind
      fun _ _ => keeps_done

theorem keeps_selected (ps : List Path) : Keeps I (selected ps) fun _ => True :=
  (keeps_mapM fun _ _ => (hI.keeps_compose _).any).bind fun _ _ => (hI.keeps_pair _).any

theorem keeps_breakdown (pivot target selection : Term) (ps : List Path) (split : Term) :
    Keeps I (r.breakdown pivot target selection ps split) fun _ => True := by
  have ended (u : Term) (ps : List Path) :
      Keeps I (turned pivot target u ps) fun _ => True := by
    rw [turned.eq_def]
    split
    · exact keeps_done
    · exact .ite (fun _ => keeps_done) fun _ =>
        (hI.keeps_invert _).bind fun _ _ => keeps_done
  have rest (led ps : List Path) :
      Keeps I (brokenDown pivot target selection ps led) fun _ => True := by
    refine (hI.keeps_selected _).bind fun t _ => ?_
    dsimp only
    split
    · exact keeps_done.bind fun u _ => ended u ps
    · exact keeps_done.bind fun u _ => ended u ps
    · exact (hI.keeps_compose _).bind fun u _ => ended u ps
  refine (keeps_mapM fun p _ => hI.keeps_extend p).bind fun ps _ => ?_
  dsimp only
  refine .ite (fun _ => keeps_done.bind fun led _ => rest led ps) fun _ =>
    keeps_ofExcept.bind fun ms _ => ?_
  split
  · exact keeps_done.bind fun _ _ => hI.keeps_bestPath.bind fun _ _ =>
      keeps_done.bind fun led _ => rest led ps
  · exact hI.keeps_bestPath.bind fun _ _ => keeps_done.bind fun _ _ =>
      hI.keeps_bestPath.bind fun _ _ => keeps_done.bind fun led _ => rest led ps

theorem keeps_partsFrom (breakdown : Term) (ps : List Path) (i : Nat) :
    Keeps I (partsFrom breakdown ps i) fun _ => True := by
  induction ps generalizing i
  case nil => exact keeps_done
  case cons p ps ih =>
    rw [partsFrom]
    refine Keeps.bind (P := fun _ => True) (.tryCatch (hI.keeps_part.map fun _ _ => trivial)
      fun e => ?_) fun t? _ => ?_
    · split
      · exact keeps_done
      · exact keeps_throw
    · split
      · exact keeps_done
      · exact (ih _).bind fun _ _ => keeps_done

omit hI in
theorem keeps_nextTarget : Keeps I r.nextTarget fun _ => True :=
  keeps_get.bind fun _ _ => keeps_ofExcept.bind fun _ _ => keeps_done

end Requests

end Session.Steers
end Inquiry
