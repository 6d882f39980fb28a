import NameInference.Proofs.Flow.Branches
import NameInference.Proofs.Flow.Paths
import NameInference.Proofs.Inference.Answers
import NameInference.Proofs.Inference.Selection

/-!
# The values that an execution returns

An execution evaluates `return` statements up to the first that is reached for certain. The flow
statements around a `return` decide about that from the inside out. If no test says anything, `if`,
`while` and `try` leave the matter open, but a `for` loop counts as if its body always ran: behind a
`return` in such loops nothing is evaluated any more.
-/

namespace NameInference

open List Place

namespace Form

variable {ν : Type}

/-- Statements that leave open whether control gets into their blocks, if nothing is known of tests.
-/
def leavesOpen : Form ν → Bool
  | ifStmt .. | whileStmt .. | tryStmt .. => true
  | _ => false

end Form

namespace Place

variable {p flow fn : Place}

/-- Whether the place is a `for` loop. -/
def isFor (p : Place) : Bool :=
  match p.node.form with
  | .forStmt .. => true
  | _ => false

/-- Whether a place is in a `for` loop and in nothing else but `for` loops and managers. -/
def isHasty (p : Place) : Bool :=
  p.flowsAround.any isFor && p.flowsAround.all fun flow => flow.isFor || flow.isWith

/-- The tests of the `if` statements around a place. -/
def testsAround (p : Place) : List Place :=
  p.flowsAround.filterMap fun flow =>
    match flow.form with
    | .ifStmt _ test _ _ => some test
    | _ => none

theorem exists_above_of_parent? (h : p.parent? = some flow) :
    flow.tree = p.tree ∧ ∃ i, p.above = (i, flow.node) :: flow.above := by
  unfold parent? at h
  split at h
  · cases h
  · next i n rest habove =>
    cases h
    exact ⟨rfl, i, habove⟩

theorem flowsAround_of_none (h : p.governor? = none) : p.flowsAround = [] := by
  rw [flowsAround]
  split
  · rfl
  · next hfound => cases hfound.symm.trans h

theorem isIf_form (p : Place) : p.isIf = match p.form with
    | .ifStmt .. => true
    | _ => false := by
  unfold isIf form
  cases p.node.form <;> rfl

theorem leavesOpen_form (p : Place) : p.form.leavesOpen = p.node.form.leavesOpen := by
  unfold form
  cases p.node.form <;> rfl

theorem isFlow_of_governor? (h : p.governor? = some flow)
    (hscope : flow.node.form.isScope = false) :
    flow.node.form.isFlow = true := by
  rw [governor?] at h
  generalize p.above = above at h
  induction above with
  | nil => cases h
  | cons step above ih =>
    rw [governorAlong] at h
    split at h
    · next hfound =>
      cases h
      simp only [hscope, Bool.false_and, Bool.false_or, Bool.true_and, Bool.and_eq_true] at hfound
      exact hfound.1
    · exact ih h

theorem isFlow_of_mem_flowsAround (h : flow ∈ p.flowsAround) : flow.node.form.isFlow = true := by
  fun_induction flowsAround p with
  | case1 => cases h
  | case2 => cases h
  | case3 p found hfound hscope ih =>
    rcases mem_cons.mp h with rfl | h
    · exact isFlow_of_governor? hfound (by simpa using hscope)
    · exact ih h

theorem isFor_or_isWith (h : p.node.form.isFlow = true) :
    (p.isFor || p.isWith) = !p.node.form.leavesOpen := by
  unfold isFor isWith
  revert h
  cases p.node.form <;> intro h <;> first | rfl | cases h

/-- A place that is neither certain nor hasty is in a statement that leaves the matter open. -/
theorem any_leavesOpen (hcertain : p.isCertain = false) (hhasty : p.isHasty = false) :
    p.flowsAround.any (·.form.leavesOpen) = true := by
  by_contra hnone
  rw [Bool.not_eq_true, any_eq_false] at hnone
  have hkind : ∀ flow ∈ p.flowsAround, (flow.isFor || flow.isWith) = true := by
    intro flow hflow
    have hopen := hnone flow hflow
    rw [leavesOpen_form, Bool.not_eq_true] at hopen
    rw [isFor_or_isWith (isFlow_of_mem_flowsAround hflow), hopen, Bool.not_false]
  rw [isCertain, all_eq_false] at hcertain
  obtain ⟨flow, hflow, hwith⟩ := hcertain
  have hfor : flow.isFor = true := by simpa [hwith] using hkind flow hflow
  rw [isHasty, all_eq_true.mpr hkind, Bool.and_true, any_eq_false] at hhasty
  exact hhasty flow hflow hfor

theorem any_leavesOpen_of_isHasty (h : p.isHasty = true) :
    p.flowsAround.any (·.form.leavesOpen) = false := by
  rw [isHasty, Bool.and_eq_true, all_eq_true] at h
  rw [any_eq_false]
  intro flow hflow
  have hkind := h.2 flow hflow
  rw [isFor_or_isWith (isFlow_of_mem_flowsAround hflow), Bool.not_eq_true'] at hkind
  rw [leavesOpen_form, hkind]
  exact Bool.false_ne_true

end Place

section

variable {source : Source} {m : Module} (h : Module.ofSource source = .ok m) {tree : Nat}
  {p flow fn : Place}

include h

/-- Around a statement that stands in a scope directly there is no flow statement. -/
theorem Module.flowsAround_of_parent? (hp : p ∈ (Place.root tree m).walk)
    (hstatement : p.node.form.isStatement = true) (hparent : p.parent? = some fn)
    (hscope : fn.node.form.isScope = true) : p.flowsAround = [] := by
  obtain ⟨-, i, habove⟩ := exists_above_of_parent? hparent
  have hproper : p ≠ Place.root tree m := by
    rintro rfl
    simp [Place.root] at habove
  have hsited := (sited_of_mem_walk h hp).resolve_left hproper
  have hblock := inBlocks_of_mem_walk h hp hstatement (i, fn.node) (by simp [habove])
  have houter := hsited.stops (x := (i, fn.node)) (by simp [habove]) hscope hblock p.isParamName
  have hgovernor : p.governor? = some ⟨p.tree, fn.node, fn.above⟩ := by
    rw [Place.governor?, habove, Place.governorAlong, hscope, houter]
    rfl
  exact flowsAround_of_isScope hgovernor hscope

/-- A scope ends the search for flow statements only where there are no more of them. -/
theorem Module.flowsAround_of_stop (hp : p ∈ (Place.root tree m).walk)
    (hfn : fn ∈ (Place.root tree m).walk) (hscope : fn.node.form.isScope = true)
    (hflow : flow ∈ p.flowsAround)
    (hstop : (some flow.key == some fn.key || flow.parent?.map Place.key == some fn.key) = true) :
    flow.flowsAround = [] := by
  have hmem := mem_ancestors_of_mem_flowsAround hflow
  have hwalk := (mem_walk_of_mem_upwards rfl hp (mem_cons_of_mem _ hmem)).1
  have hkind := isFlow_of_mem_flowsAround hflow
  have hinj := inj_on_of_nodup_map (Place.root tree m).nodup_walk
  rw [Bool.or_eq_true, beq_iff_eq, beq_iff_eq, Option.some_inj, Option.map_eq_some_iff] at hstop
  rcases hstop with hkey | ⟨parent, hparent, hkey⟩
  · obtain rfl := hinj hwalk hfn hkey
    rw [Form.isScope_of_isFlow hkind] at hscope
    cases hscope
  · obtain ⟨htree, i, habove⟩ := exists_above_of_parent? hparent
    have hparents : parent ∈ flow.ancestors := mem_alongWay.mpr ⟨htree, [], i, habove⟩
    have hparentWalk := (mem_walk_of_mem_upwards rfl hwalk (mem_cons_of_mem _ hparents)).1
    obtain rfl := hinj hparentWalk hfn hkey
    exact flowsAround_of_parent? h hwalk (Form.isStatement_of_isFlow hkind) hparent hscope

/-- A statement in an `if` is in one of its two blocks. -/
theorem Module.branchOf_of_isIf (hp : p ∈ (Place.root tree m).walk)
    (hstatement : p.node.form.isStatement = true) (hflow : flow ∈ p.flowsAround)
    (hif : flow.isIf = true) : flow.branchOf p = .body ∨ flow.branchOf p = .orElse := by
  obtain ⟨htree, inner, i, habove⟩ := mem_alongWay.mp (mem_ancestors_of_mem_flowsAround hflow)
  have hblock := inBlocks_of_mem_walk h hp hstatement (i, flow.node) (by simp [habove])
  rw [branchOf_of_path (inner.map (·.1)) i htree (by simp [Place.path, habove])]
  unfold Place.isIf at hif
  split at hif
  · next hform =>
    simp only [hform, Form.isBlockPart, decide_eq_true_eq] at hblock
    rw [hform, Form.branchOfPart, if_neg (by omega)]
    split
    · exact .inl rfl
    · exact .inr rfl
  · cases hif

end

namespace Place

section

variable {m : Type → Type} [Monad m] (check : Place → m Reachability)

/-- What flow statements say about a place, one after the other, up to the first that does not let
it be reached. -/
def verdictAlong (p : Place) : List Place → m Reachability
  | [] => return .reachable
  | flow :: rest => do
    let here ← flow.verdictOf check p
    if here != .reachable then return here else verdictAlong p rest

variable [LawfulMonad m]

/-- The flow statements from one on are asked one after the other, if the scope does not leave any
of them out. -/
theorem verdictUpTo_eq {p flow : Place} {scope : Option PlaceKey}
    (hscope : flow.node.form.isScope = false)
    (hstop : ∀ f ∈ flow :: flow.flowsAround, (some f.key == scope || f.parent?.map key == scope) =
      true → f.flowsAround = []) :
    verdictUpTo check scope p flow = verdictAlong check p (flow :: flow.flowsAround) := by
  induction hdepth : flow.depth using Nat.strongRecOn generalizing flow with
  | ind depth ih =>
    obtain ⟨hhere, hrest⟩ := forall_mem_cons.mp hstop
    rw [verdictUpTo, verdictAlong]
    refine bind_congr fun here => ?_
    by_cases hreached : here = .reachable
    · subst hreached
      have hpasses : ¬ (Reachability.reachable != .reachable) = true := by decide
      rw [if_neg hpasses, if_neg hpasses]
      by_cases hends : (some flow.key == scope || flow.parent?.map key == scope) = true
      · rw [if_pos (by rw [hends, Bool.true_or]), hhere hends]
        rfl
      · rw [if_neg (by simpa [hscope] using hends)]
        split
        · next hnone =>
          rw [flowsAround_of_none hnone]
          rfl
        · next outer houter =>
          cases hkind : outer.node.form.isScope with
          | true =>
            rw [verdictUpTo_of_isScope check hkind, flowsAround_of_isScope houter hkind, pure_bind]
            rfl
          | false =>
            have hflows := flowsAround_of_governor? houter (isFlow_of_governor? houter hkind)
            rw [hflows] at hrest ⊢
            rw [ih outer.depth (hdepth ▸ depth_governorAlong houter) hkind hrest rfl]
            have hand : (Reachability.reachable.and : Reachability → Reachability) = id := by
              funext verdict
              cases verdict <;> rfl
            rw [hand]
            exact bind_pure _
    · rw [if_pos (by simpa using hreached), if_pos (by simpa using hreached)]

/-- Whether a place is reached is decided by the flow statements around it. -/
theorem reachability_eq {p : Place} {scope : Option Place}
    (hstop : ∀ f ∈ p.flowsAround, (some f.key == scope.map key ||
      f.parent?.map key == scope.map key) = true → f.flowsAround = []) :
    p.reachability check scope none = verdictAlong check p p.flowsAround := by
  rw [reachability]
  simp only [Option.bind_none]
  split
  · next hnone =>
    rw [flowsAround_of_none hnone]
    rfl
  · next flow hflow =>
    cases hkind : flow.node.form.isScope with
    | true =>
      rw [verdictUpTo_of_isScope check hkind, flowsAround_of_isScope hflow hkind]
      rfl
    | false =>
      have hflows := flowsAround_of_governor? hflow (isFlow_of_governor? hflow hkind)
      rw [hflows] at hstop ⊢
      exact verdictUpTo_eq check hkind hstop

/-- Flow statements without tests need not be asked. -/
theorem verdictAlong_of_not_isIf {p : Place} {flows : List Place}
    (h : ∀ f ∈ flows, f.isIf = false) :
    verdictAlong check p flows = return if flows.any (·.form.leavesOpen) then .unsure
      else .reachable := by
  induction flows with
  | nil => rfl
  | cons flow rest ih =>
    obtain ⟨hflow, hrest⟩ := forall_mem_cons.mp h
    have hverdict : flow.verdictOf check p = return if flow.form.leavesOpen then .unsure
        else .reachable := by
      rw [isIf_form] at hflow
      rw [verdictOf]
      cases hform : flow.form with
      | ifStmt => simp [hform] at hflow
      | _ => rfl
    rw [verdictAlong, hverdict, pure_bind, any_cons]
    cases flow.form.leavesOpen with
    | true => rfl
    | false => simpa using ih hrest

end

instance (execution : ValueId) (p : Place) (flows : List Place) :
    Infer.Steady (verdictAlong (Infer.check execution) p flows) := by
  induction flows with
  | nil => exact inferInstanceAs (Infer.Steady (pure _))
  | cons flow rest ih =>
    unfold verdictAlong
    infer_instance

end Place

/-- Nothing has come out of the test in the execution but that it is unsure. -/
def Session.Undecided (s : Session) (execution : ValueId) (test : Place) : Prop :=
  ∀ verdict, s.memo.find? (.test test.key execution) = some (.done verdict) → verdict = .unsure

namespace Infer

variable {execution : ValueId} {depth : Nat} {s t last : Session} {p flow fn : Place}
  {verdict : Reachability}

theorem verdict_of_undecided {test : Place}
    (hrun : check execution test (engine depth) s = (.ok verdict, t)) (hlast : t.Evolves last)
    (hundecided : last.Undecided execution test) : verdict = .unsure := by
  rcases check_cases hrun with hunsure | hrecorded
  · exact hunsure
  · exact hundecided verdict (hlast.answers _ _ hrecorded)

/-- What a flow statement says about a place in one of its blocks. -/
theorem verdictOf_of_undecided
    (hbranch : flow.isIf = true → flow.branchOf p = .body ∨ flow.branchOf p = .orElse)
    (hrun : flow.verdictOf (check execution) p (engine depth) s = (.ok verdict, t))
    (hlast : t.Evolves last)
    (hundecided : ∀ isElif test body orElse, flow.form = .ifStmt isElif test body orElse →
      last.Undecided execution test) :
    verdict = if flow.form.leavesOpen then .unsure else .reachable := by
  rw [Place.verdictOf] at hrun
  cases hform : flow.form with
  | ifStmt isElif test body orElse =>
    have htest := hundecided isElif test body orElse hform
    rw [hform] at hrun
    rcases hbranch (by rw [isIf_form, hform]) with hbody | horElse
    · rw [hbody] at hrun
      exact verdict_of_undecided hrun hlast htest
    · rw [horElse] at hrun
      obtain ⟨found, u, hcheck, hinvert⟩ := bind_eq_ok_iff.mp hrun
      cases hinvert
      rw [verdict_of_undecided hcheck hlast htest]
      rfl
  | _ =>
    rw [hform] at hrun
    cases hrun
    rfl

theorem verdictAlong_of_undecided {flows : List Place}
    (hbranch : ∀ f ∈ flows, f.isIf = true → f.branchOf p = .body ∨ f.branchOf p = .orElse)
    (hrun : Place.verdictAlong (check execution) p flows (engine depth) s = (.ok verdict, t))
    (hlast : t.Evolves last)
    (hundecided : ∀ f ∈ flows, ∀ isElif test body orElse, f.form = .ifStmt isElif test body orElse →
      last.Undecided execution test) :
    verdict = if flows.any (·.form.leavesOpen) then .unsure else .reachable := by
  induction flows generalizing s with
  | nil =>
    cases hrun
    rfl
  | cons flow rest ih =>
    obtain ⟨hbranch, hbranches⟩ := forall_mem_cons.mp hbranch
    obtain ⟨htest, htests⟩ := forall_mem_cons.mp hundecided
    obtain ⟨here, u, hhere, hrest⟩ := bind_eq_ok_iff.mp hrun
    split at hrest
    · next hne =>
      cases hrest
      have hverdict := verdictOf_of_undecided hbranch hhere hlast htest
      rw [any_cons]
      cases hopen : flow.form.leavesOpen with
      | true => simpa [hopen] using hverdict
      | false => simp [hverdict, hopen] at hne
    · next heq =>
      have hevolves : u.Evolves t := evolves_of_run (steady_engine depth) hrest
      have hverdict := verdictOf_of_undecided hbranch hhere (hevolves.trans hlast) htest
      rw [ih hbranches hrest htests, any_cons]
      cases hopen : flow.form.leavesOpen with
      | true => simp [hverdict, hopen] at heq
      | false => rfl

end Infer

section

variable {source : Source} {m : Module} (h : Module.ofSource source = .ok m) {tree : Nat}
  {stmt fn : Place}
  {execution : ValueId} {depth : Nat} {s t last : Session} {verdict : Reachability}

include h

/-- If there is no test around a statement of a function, whether it is reached hangs on the kinds
of the flow statements around it. -/
theorem Module.reachability_of_testsAround_eq_nil (hstmt : stmt ∈ (Place.root tree m).walk)
    (hfn : fn ∈ (Place.root tree m).walk) (hscope : fn.node.form.isScope = true)
    (htests : stmt.testsAround = []) {M : Type → Type} [Monad M] [LawfulMonad M]
    (check : Place → M Reachability) :
    stmt.reachability check (some fn) none =
      return if stmt.flowsAround.any (·.form.leavesOpen) then .unsure else .reachable := by
  have hstop : ∀ f ∈ stmt.flowsAround, (some f.key == some fn.key ||
    f.parent?.map Place.key == some fn.key) = true →
      f.flowsAround = [] := fun f hf => flowsAround_of_stop h hstmt hfn hscope hf
  rw [reachability_eq check hstop]
  refine verdictAlong_of_not_isIf check fun f hf => ?_
  have hnone := filterMap_eq_nil_iff.mp htests f hf
  rw [isIf_form]
  cases hform : f.form with
  | ifStmt => simp [hform] at hnone
  | _ => rfl

/-- If no test around a statement of a function says anything, whether the statement is reached
hangs on the kinds of the flow statements around it. -/
theorem Module.verdict_of_undecided (hstmt : stmt ∈ (Place.root tree m).walk)
    (hstatement : stmt.node.form.isStatement = true) (hfn : fn ∈ (Place.root tree m).walk)
    (hscope : fn.node.form.isScope = true)
    (hrun : stmt.reachability (Infer.check execution) (some fn) none (engine depth) s =
      (.ok verdict, t))
    (hlast : t.Evolves last)
    (hundecided : ∀ test ∈ stmt.testsAround, last.Undecided execution test) :
    verdict = if stmt.flowsAround.any (·.form.leavesOpen) then .unsure else .reachable := by
  have hstop : ∀ f ∈ stmt.flowsAround, (some f.key == some fn.key ||
    f.parent?.map Place.key == some fn.key) = true →
      f.flowsAround = [] := fun f hf => flowsAround_of_stop h hstmt hfn hscope hf
  rw [reachability_eq (Infer.check execution) hstop] at hrun
  refine Infer.verdictAlong_of_undecided (fun f hf => branchOf_of_isIf h hstmt hstatement hf) hrun
    hlast ?_
  intro f hf isElif test body orElse hform
  exact hundecided test (mem_filterMap.mpr ⟨f, hf, by rw [hform]⟩)

end

namespace Infer

variable {execution : ValueId} {depth : Nat} {s t last : Session} {stmt r fn : Place}
  {stmts : List Place} {set : ValueSet}

/-- The value that a `return` statement gives. -/
def returnedValue (execution : ValueId) (stmt : Place) : Infer ValueSet :=
  match stmt.form with
  | .returnStmt (some value) => eval execution value
  | _ => noneValue

theorem returnedValue_of_form {value : Place} (h : stmt.form = .returnStmt (some value)) :
    returnedValue execution stmt = eval execution value := by
  rw [returnedValue, h]

theorem returnedValue_cases (execution : ValueId) (stmt : Place) :
    (∃ value, returnedValue execution stmt = eval execution value) ∨ returnedValue execution stmt =
      noneValue := by
  unfold returnedValue
  split
  · exact .inl ⟨_, rfl⟩
  · exact .inr rfl

instance : Steady (returnedValue execution stmt) := by
  unfold returnedValue
  split <;> infer_instance

/-- The first of several `return` statements, and then the others, unless it is certain to be
reached. -/
theorem returnValues_cons (execution : ValueId) (fn stmt : Place) (rest : List Place) :
    returnValues execution fn (stmt :: rest) = do
      let verdict ← stmt.reachability (check execution) (some fn) none
      if verdict == .unreachable then
        debug fun _ => "return unreachable at line " ++ Text.ofNat stmt.start.line
        returnValues execution fn rest
      else
        let values ← returnedValue execution stmt
        if verdict == .reachable then return values
        else return values.join (← returnValues execution fn rest) := by
  rw [returnValues]
  refine bind_congr fun verdict => ?_
  cases verdict with
  | unreachable => rfl
  | reachable | unsure =>
    rw [if_neg (by decide), returnedValue]
    cases stmt.form with
    | returnStmt value => cases value <;> rfl
    | _ => rfl

/-- In any later session, a `return` statement gives what it gave before, also when the execution
has ended. -/
theorem returnedValue_again {values : ValueSet} {u : Session}
    (hrun : returnedValue execution r (engine depth) s = (.ok values, t))
    (hanswers : t.memo.Keeps u.memo)
    (hrunning : ∀ q, q ≠ .execution execution → u.memo.isRunning q = t.memo.isRunning q)
    (hvalues : t.values.Keeps u.values) (later : Nat) :
    ∃ v, returnedValue execution r (engine (later + 1)) u = (.ok values, v) := by
  have hevolves : s.Evolves t := evolves_of_run (steady_engine depth) hrun
  rcases returnedValue_cases execution r with ⟨value, heq⟩ | heq
  · rw [heq] at hrun ⊢
    exact eval_again hrun hanswers ((hrunning _ (by simp)).trans (hevolves.running _)) later
  · rw [heq] at hrun ⊢
    obtain ⟨id, v, hintern, hpure⟩ := bind_eq_ok_iff.mp hrun
    cases hpure
    obtain ⟨w, hagain⟩ := intern_again hintern hvalues (engine (later + 1))
    exact ⟨w, bind_of_ok hagain⟩

/-- A `return` statement is evaluated if those before it leave open whether they are reached. -/
theorem exists_returnedValue_of_returnValues {before after : List Place}
    (hverdict : ∀ stmt ∈ before ++ r :: after, ∀ s verdict t,
      stmt.reachability (check execution) (some fn) none (engine depth) s = (.ok verdict, t) →
      t.Evolves last →
      verdict = if stmt.flowsAround.any (·.form.leavesOpen) then .unsure else .reachable)
    (hopen : ∀ stmt ∈ before, stmt.flowsAround.any (·.form.leavesOpen) = true)
    (hrun : returnValues execution fn (before ++ r :: after) (engine depth) s = (.ok set, t))
    (hlast : t.Evolves last) :
    ∃ u values v, returnedValue execution r (engine depth) u = (.ok values, v) ∧ v.Evolves last ∧
      values.ids ⊆ set.ids := by
  have hsteady := steady_engine depth
  induction before generalizing s set with
  | nil =>
    rw [nil_append, returnValues_cons] at hrun
    obtain ⟨verdict, u, hreach, hrun⟩ := bind_eq_ok_iff.mp hrun
    have hfound := hverdict r (by simp) s verdict u hreach
      ((evolves_of_run hsteady hrun).trans hlast)
    have hreached : verdict ≠ .unreachable := by
      rw [hfound]
      split <;> decide
    rw [if_neg (by simpa using hreached)] at hrun
    obtain ⟨values, v, hvalue, hrun⟩ := bind_eq_ok_iff.mp hrun
    refine ⟨u, values, v, hvalue, (evolves_of_run hsteady hrun).trans hlast, ?_⟩
    split at hrun
    · cases hrun
      exact List.Subset.refl _
    · obtain ⟨others, w, -, hpure⟩ := bind_eq_ok_iff.mp hrun
      cases hpure
      exact fun id hid => ValueSet.mem_join.mpr (.inl hid)
  | cons stmt before ih =>
    obtain ⟨hstmt, hbefore⟩ := forall_mem_cons.mp hopen
    obtain ⟨hfirst, hothers⟩ := forall_mem_cons.mp hverdict
    rw [cons_append, returnValues_cons] at hrun
    obtain ⟨verdict, u, hreach, hrun⟩ := bind_eq_ok_iff.mp hrun
    have hunsure := hfirst s verdict u hreach ((evolves_of_run hsteady hrun).trans hlast)
    rw [hstmt, if_pos rfl] at hunsure
    subst hunsure
    rw [if_neg (by decide)] at hrun
    obtain ⟨values, v, -, hrun⟩ := bind_eq_ok_iff.mp hrun
    rw [if_neg (by decide)] at hrun
    obtain ⟨others, w, hrest, hpure⟩ := bind_eq_ok_iff.mp hrun
    cases hpure
    obtain ⟨u, found, v, hvalue, hevolves, hsub⟩ := ih hothers hbefore hrest
    exact ⟨u, found, v, hvalue, hevolves, fun id hid => ValueSet.mem_join.mpr (.inr (hsub hid))⟩

end Infer

end NameInference
