import Mathlib.Logic.Relation
import NameInference.Proofs.Steady.Evaluation

/-!
# Queries are steady

What a session can be asked for is put together from steady steps, so every session evolves by every
query, and so does it by queries one after the other.
-/

namespace NameInference

namespace Infer

variable (id module context : ValueId) (position : Position) (text : Text)

instance (scope : Place) :
    Steady (contextOfScope module scope) := by unfold contextOfScope; infer_instance

instance : Steady (contextAt module position) := by
  unfold contextAt
  refine .after fun _ => ?_
  split <;> infer_instance

instance : Steady (originAt? context text position) := by unfold originAt?; infer_instance

instance (origin : Place) : Steady (bindingAt? context text origin) := by
  unfold bindingAt?
  split <;> infer_instance

instance : Steady (inferFrom context text position) := by
  unfold inferFrom
  refine .after fun _ => ?_
  dsimp only
  split
  · infer_instance
  · refine .ite inferInstance (.after fun _ => ?_)
    split <;> infer_instance

instance : Steady (inferAt module text position) := by unfold inferAt; infer_instance

instance : Steady (inferExpressionAt module position) := by
  unfold inferExpressionAt
  refine .after fun _ => ?_
  split
  · infer_instance
  · split <;> infer_instance

instance : Steady (gotoNames context text position) := by unfold gotoNames; infer_instance

instance (node : Place) (isBound : Bool) (name : Option Text) :
    Steady (signatureOf node isBound name) := by
  unfold signatureOf
  infer_instance

instance : Steady (classSignatures id) := by unfold classSignatures; infer_instance

instance (depth : Nat) : Steady (signatures depth id) := by
  induction depth generalizing id with
  | zero => exact inferInstanceAs (Steady (throw .nestedTooDeeply : Infer (List Signature)))
  | succ depth ih =>
    unfold signatures
    extract_lets ofNode
    have hofNode (isBound : Bool) : Steady (ofNode isBound) := by
      refine .after fun _ => ?_
      split <;> infer_instance
    refine .after fun _ => ?_
    split
    case h_5 => split <;> infer_instance
    all_goals infer_instance

instance : Steady (collectIssues module) := by
  unfold collectIssues
  refine .after fun _ => ?_
  split <;> infer_instance

end Infer

namespace Session

variable {s t : Session}

theorem evolves_importNamesFor (path : Text) (s : Session) :
    s.Evolves (s.importNamesFor path).2 := by
  refine .of_same ?_
  unfold importNamesFor
  dsimp only
  split <;> rfl

theorem evolves_registerCompiled (name : Text) (members : Table ValueSet) (s : Session) :
    s.Evolves (s.registerCompiled name members).2 :=
  (evolves_intern (.compiled name [] true) s).trans (.of_same rfl)

theorem steady_loadModule (path : Text) : SessionM.Steady (loadModule path) := by
  unfold loadModule
  refine .bind (fun s => .refl s) fun s => ?_
  split
  · exact fun s => .refl s
  · exact .bind (Infer.steady_parseFile path) fun _ =>
        .bind (evolves_importNamesFor path) fun _ s =>
      evolves_internModule _ s

theorem steady_loadSource (code path : Text) (names : List Text) :
    SessionM.Steady (loadSource code path names) := by
  unfold loadSource
  refine .bind (Infer.steady_parseSource code path) fun _ => ?_
  dsimp only
  split
  · exact .bind (evolves_importNamesFor path) fun _ s => evolves_internModule _ s
  · exact .bind (fun s => .refl s) fun _ s => evolves_internModule _ s

end Session

/-- What a session can be asked for. -/
inductive Query where
  | load (path : Text)
  | source (code path : Text) (names : List Text)
  | register (name : Text) (members : Table ValueSet)
  | importing (names : List Text)
  | implementation (names : List Text)
  | infer (context : ValueId) (id : Text) (position : Position)
  | inferAt (module : ValueId) (id : Text) (position : Position)
  | inferExpressionAt (module : ValueId) (position : Position)
  | eval (context : ValueId) (node : Place)
  | attr (values : ValueSet) (name : Text) (origin : Option Place)
  | order (cls : ValueId)
  | stars (module : ValueId)
  | signatures (id : ValueId)
  | goto (context : ValueId) (id : Text) (position : Position)
  | issues (module : ValueId)

namespace Query

/-- The session that a query leaves behind, whether it has an answer or fails. -/
def leaves (s : Session) : Query → Session
  | load path => (Session.loadModule path s).2
  | source code path names => (Session.loadSource code path names s).2
  | register name members => (s.registerCompiled name members).2
  | importing names => ((Infer.importModule names).start s).2
  | implementation names => ((Infer.importImplementation names).start s).2
  | infer context id position => ((Infer.inferFrom context id position).start s).2
  | inferAt module id position => ((Infer.inferAt module id position).start s).2
  | inferExpressionAt module position => ((Infer.inferExpressionAt module position).start s).2
  | eval context node => ((Infer.eval context node).start s).2
  | attr values name origin => ((Infer.attrOfAll values name origin).start s).2
  | order cls => ((Infer.order cls).start s).2
  | stars module => ((Infer.starModules module).start s).2
  | signatures id => ((Infer.signatures engineDepth id).start s).2
  | goto context id position => ((Infer.gotoNames context id position).start s).2
  | issues module => ((Infer.collectIssues module).start s).2

theorem evolves_start {α : Type} (step : Infer α) [h : step.Steady] (s : Session) :
    s.Evolves (step.start s).2 :=
  SessionM.Steady.of_step step (steady_engine engineDepth) s

/-- Every session evolves by every query. -/
theorem evolves_leaves (s : Session) (query : Query) : s.Evolves (query.leaves s) := by
  cases query with
  | load path => exact Session.steady_loadModule path s
  | source code path names => exact Session.steady_loadSource code path names s
  | register name members => exact Session.evolves_registerCompiled name members s
  | _ =>
    simp only [leaves]
    exact evolves_start _ s

end Query

namespace Session

/-- One session comes out of another one by queries. -/
def Later : Session → Session → Prop :=
  Relation.ReflTransGen fun s t => ∃ query : Query, query.leaves s = t

/-- The session comes out of a new one by queries. -/
def Reached (s : Session) : Prop :=
  ∃ files settings traced, (Session.new files settings traced).Later s

theorem Later.evolves {s t : Session} (h : s.Later t) : s.Evolves t := by
  induction h with
  | refl => exact .refl s
  | tail _ hquery ih =>
    obtain ⟨query, rfl⟩ := hquery
    exact ih.trans (query.evolves_leaves _)

/-- What holds between queries: nothing is being computed, values are told apart by their keys, and
no issue is recorded twice. -/
structure Sound (s : Session) : Prop where
  idle : ∀ q, s.memo.isRunning q = false
  consistent : s.values.Consistent
  distinct : s.DistinctIssues

theorem Sound.evolves {s t : Session} (h : s.Sound) (hevolves : s.Evolves t) : t.Sound :=
  ⟨fun q => (hevolves.running q).trans (h.idle q), hevolves.consistent h.consistent,
    hevolves.distinct h.distinct⟩

theorem sound_new (files : Files) (settings : Settings) (traced : Bool) :
    (Session.new files settings traced).Sound where
  idle q := by
    change ({} : Memo Question Answer).isRunning q = false
    rw [Memo.isRunning, Memo.find?_empty]
  consistent := Arena.consistent_empty
  distinct := List.nodup_nil

theorem Reached.sound {s : Session} (h : s.Reached) : s.Sound := by
  obtain ⟨files, settings, traced, hlater⟩ := h
  exact (sound_new files settings traced).evolves hlater.evolves

end Session

end NameInference
