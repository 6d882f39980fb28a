import NameInference.Proofs.Inference.Answers
import NameInference.Proofs.Unpack.Targets
import NameInference.Proofs.Value.Members

/-!
# The items of displays

A display is evaluated to instances that remember it, so that its items can be evaluated one by one.

* `Session.Equipped`: the displays in a value can be evaluated, because the classes of tuples and
  lists are known.
* `Infer.eval_display`: then a display is evaluated to instances of itself, and the other displays
  stay as they are.
* `Infer.itemsAt_of_displays`: what such instances have at a number is what the item there is
  evaluated to.
-/

namespace NameInference

namespace Session

/-- The values are instances that a display has made. -/
def Displays (s : Session) (context : ValueId) (display : Place) (set : ValueSet) : Prop :=
  set.ids ≠ [] ∧ ∀ id ∈ set.ids, s.values.display? (.single id) = some (display, context)

/-- The recorded values of an expression; it has none while it is being evaluated. -/
def Records (s : Session) (context : ValueId) (node : Place) (set : ValueSet) : Prop :=
  s.memo.find? (.eval node.key context) = some (.done set) ∨
    s.memo.isRunning (.eval node.key context) = true ∧ set = ∅

/-- Nothing differs in the values of expressions. -/
structure Matches (s t : Session) : Prop where
  memo : ∀ node context, t.memo.find? (.eval node context) = s.memo.find? (.eval node context)
  values : t.values = s.values
  classes : t.builtinClasses = s.builtinClasses

/-- Values have been interned, and nothing else has changed. -/
structure Interns (s : Session) (values : List (Value Place)) (t : Session) : Prop where
  memo : t.memo = s.memo
  classes : t.builtinClasses = s.builtinClasses
  keeps : s.values.Keeps t.values
  consistent : s.values.Consistent → t.values.Consistent
  fresh : ∀ id v, t.values.get? id = some v → s.values.get? id = some v ∨ v ∈ values
  known : ∀ v ∈ values, ∃ id : ValueId, t.values.find? (·.map Place.key) (v.map Place.key) = some id

/-- The displays of instances that are in the tree of a root are below the root. -/
def Places (s : Session) (root : Place) : Prop :=
  ∀ id cls arguments display scope, s.values.get? id =
    some (.inst cls arguments (some (display, scope))) →
    display.tree = root.tree → display ∈ root.walk

/-- The displays in a value can be evaluated. Places are known by their keys, the classes of tuples
and lists have been looked up, and what is recorded of a display are instances that it has made. -/
structure Equipped (s : Session) (root value : Place) (context : ValueId) : Prop where
  consistent : s.values.Consistent
  places : s.Places root
  tuples : ∃ classes, s.builtinClasses[Text.ofString "tuple"]? = some classes ∧ classes.ids ≠ []
  lists : ∃ classes, s.builtinClasses[Text.ofString "list"]? = some classes ∧ classes.ids ≠ [] ∧
    ∀ cls ∈ classes.ids, s.values.isClass cls = true
  displays : ∀ display ∈ value.walk, display.sequence?.isSome = true →
    s.memo.find? (.eval display.key context) = none ∨
      ∃ set, s.memo.find? (.eval display.key context) = some (.done set) ∧
      s.Displays context display set

variable {s t u : Session} {root value node display : Place} {context : ValueId} {set : ValueSet}

/-- A place is known by its key. -/
theorem Places.eq_of_key (h : s.Places root) {id cls : ValueId} {arguments : ArgumentsId}
    {found : Place} (hget : s.values.get? id = some (.inst cls arguments (some (found, context))))
    (hdisplay : display ∈ root.walk) (hkey : found.key = display.key) : found = display := by
  have htree : found.tree = root.tree :=
    (congrArg PlaceKey.tree hkey).trans (Place.tree_of_mem_walk hdisplay)
  exact List.inj_on_of_nodup_map root.nodup_walk (h id cls arguments found context hget htree)
    hdisplay hkey

theorem Interns.places {values : List (Value Place)} (h : s.Interns values t)
    (hplaces : s.Places root)
    (hvalues : ∀ cls arguments display scope, Value.inst cls arguments (some (display, scope)) ∈
      values → display ∈ root.walk) : t.Places root := by
  intro id cls arguments display scope hget htree
  rcases h.fresh id _ hget with hold | hmem
  · exact hplaces id cls arguments display scope hold htree
  · exact hvalues cls arguments display scope hmem

theorem Matches.refl (s : Session) : s.Matches s := ⟨fun _ _ => rfl, rfl, rfl⟩

theorem Matches.trans (h : s.Matches t) (h' : t.Matches u) : s.Matches u :=
  ⟨fun node context => (h'.memo node context).trans (h.memo node context), h'.values.trans h.values,
    h'.classes.trans h.classes⟩

theorem Displays.keeps (h : s.Displays context display set) (hkeeps : s.values.Keeps t.values) :
    t.Displays context display set := by
  refine ⟨h.1, fun id hid => ?_⟩
  have hdisplay := h.2 id hid
  unfold Values.display? at hdisplay ⊢
  cases hget : s.values.get? id with
  | none => simp [ValueSet.only?, ValueSet.single, hget] at hdisplay
  | some found => simpa [ValueSet.only?, ValueSet.single, hget, hkeeps.items _ _ hget]
    using hdisplay

theorem Displays.congr {other : ValueSet} (h : s.Displays context display set)
    (hids : ∀ id, id ∈ other.ids ↔ id ∈ set.ids) : s.Displays context display other := by
  obtain ⟨id, hid⟩ := List.exists_mem_of_ne_nil _ h.1
  exact ⟨List.ne_nil_of_mem ((hids id).mpr hid), fun id hid => h.2 id ((hids id).mp hid)⟩

/-- What is known stays known, if nothing else is recorded of the displays. -/
theorem Equipped.later (h : s.Equipped root value context) (hkeeps : s.values.Keeps t.values)
    (hconsistent : t.values.Consistent)
    (hplaces : t.Places root)
    (hclasses : t.builtinClasses = s.builtinClasses)
    (hmemo : ∀ display ∈ value.walk, display.sequence?.isSome = true →
      t.memo.find? (.eval display.key context) = s.memo.find? (.eval display.key context) ∨
        ∃ set, t.memo.find? (.eval display.key context) = some (.done set) ∧
    t.Displays context display set) : t.Equipped root value context where
  consistent := hconsistent
  places := hplaces
  tuples := hclasses ▸ h.tuples
  lists := by
    obtain ⟨classes, hfound, hne, hclass⟩ := h.lists
    exact ⟨classes, hclasses ▸ hfound, hne,
      fun cls hcls => Values.isClass_of_keeps (hclass cls hcls) hkeeps⟩
  displays display hdisplay hsequence := by
    rcases hmemo display hdisplay hsequence with hsame | hdisplays
    · rw [hsame]
      exact (h.displays display hdisplay hsequence).imp_right fun ⟨set, hfound, hdisplays⟩ =>
        ⟨set, hfound, hdisplays.keeps hkeeps⟩
    · exact .inr hdisplays

theorem Equipped.of_matches (h : s.Equipped root value context) (hmatches : s.Matches t) :
    t.Equipped root value context :=
  h.later (hmatches.values ▸ .refl _) (hmatches.values ▸ h.consistent)
    (fun id => hmatches.values ▸ h.places id) hmatches.classes fun _ _ _ => .inl (hmatches.memo _ _)

theorem Records.of_matches (h : s.Records context node set) (hmatches : s.Matches t) :
    t.Records context node set :=
  h.imp (hmatches.memo _ _).trans fun h =>
    ⟨(Memo.isRunning_congr (hmatches.memo _ _)).trans h.1, h.2⟩

end Session

namespace Infer

variable {α : Type} {s t : Session} {root value node display : Place} {context : ValueId}
  {set : ValueSet} {calls : Calls} {depth : Nat}

/-- What is recorded is the answer. -/
theorem eval_of_records (h : s.Records context node set) (depth : Nat) :
    ∃ t, eval context node (engine (depth + 1)) s = (.ok set, t) ∧ s.Matches t := by
  rcases h with hdone | ⟨hbusy, rfl⟩
  · exact ⟨_, MemoSlot.answer_of_done hdone, fun _ _ => rfl, rfl, rfl⟩
  · obtain ⟨sofar, hfound⟩ := Memo.isRunning_iff.mp hbusy
    exact ⟨_, MemoSlot.answer_of_running hfound, fun _ _ => rfl, rfl, rfl⟩

/-- What an expression is evaluated to is recorded. -/
theorem records_of_eval (h : eval context node (engine depth) s = (.ok set, t)) :
    t.Records context node set := by
  rcases eval_cases h with ⟨hbusy, hempty⟩ | hdone
  · refine .inr ⟨?_, hempty⟩
    rw [(evolves_of_run (steady_engine depth) h).running, hbusy]
  · exact .inl hdone

theorem builtinClass_of_known {name : String} {classes : ValueSet}
    (h : s.builtinClasses[Text.ofString name]? = some classes) :
    builtinClass name calls s = (.ok classes, s) := by
  rw [builtinClass, builtinClassNamed, bind_of_ok (a := s) (t := s) rfl, h]
  rfl

theorem find?_intern (s : Session) (value : Value Place) :
    (s.intern value).2.values.find? (·.map Place.key) (value.map Place.key) =
      some (s.intern value).1 := by
  exact Arena.find?_intern (fun v : Value Place => v.map Place.key) s.values value

/-- A set of values that are interned one after the other. -/
theorem gather_intern (f : α → Value Place) (items : List α) (calls : Calls) (s : Session) :
    ∃ set t, gather items (fun item => intern (f item)) calls s = (.ok set, t) ∧
      s.Interns (items.map f) t ∧ (items ≠ [] → set.ids ≠ []) ∧
      ∀ id, id ∈ set.ids ↔
      ∃ item ∈ items, t.values.find? (·.map Place.key) ((f item).map Place.key) = some id := by
  suffices hfold : ∀ out : ValueSet, ∃ set t,
      (items.foldlM (fun out item => return out.insert (← intern (f item))) out : Infer ValueSet)
        calls s = (.ok set, t) ∧ s.Interns (items.map f) t ∧
      ∀ id, id ∈ set.ids ↔
        id ∈ out.ids ∨ ∃ item ∈ items, t.values.find? (·.map Place.key) ((f item).map Place.key) =
          some id by
    obtain ⟨set, t, hrun, hinterns, hids⟩ := hfold ∅
    refine ⟨set, t, hrun, hinterns, fun hne => ?_, fun id => by simpa using hids id⟩
    obtain ⟨item, hitem⟩ := List.exists_mem_of_ne_nil _ hne
    obtain ⟨id, hhandle⟩ := hinterns.known _ (List.mem_map_of_mem hitem)
    exact List.ne_nil_of_mem ((hids id).mpr (.inr ⟨item, hitem, hhandle⟩))
  induction items generalizing s with
  | nil => exact fun out =>
    ⟨out, s, rfl, ⟨rfl, rfl, .refl _, fun h => h, fun _ _ h => .inl h, by simp⟩, by simp⟩
  | cons item rest ih =>
    intro out
    obtain ⟨set, t, hrun, hinterns, hids⟩ :=
      ih (s.intern (f item)).2 (out.insert (s.intern (f item)).1)
    have hfirst : s.values.Keeps (s.intern (f item)).2.values := Arena.keeps_intern _ _ _
    have hhandle : t.values.find? (·.map Place.key) ((f item).map Place.key) =
      some (s.intern (f item)).1 :=
      hinterns.keeps.found _ _ (find?_intern s (f item))
    refine ⟨set, t, hrun, ⟨hinterns.memo, hinterns.classes, hfirst.trans hinterns.keeps,
      fun h => hinterns.consistent (h.intern (f item)), fun id v hget => ?_, ?_⟩, fun id => ?_⟩
    · rw [List.map_cons, List.mem_cons, ← or_assoc]
      exact (hinterns.fresh id v hget).imp_left fun hold => Arena.get?_of_intern hold
    · exact List.forall_mem_cons.mpr ⟨⟨_, hhandle⟩, hinterns.known⟩
    · rw [hids, ValueSet.mem_insert, List.exists_mem_cons_iff, hhandle, Option.some.injEq,
        eq_comm (a := id)]
      tauto

theorem exists_of_map_eq_inst {found : Value Place} {cls : ValueId} {arguments : ArgumentsId}
    {key : PlaceKey} (h : found.map Place.key = .inst cls arguments (some (key, context))) :
    ∃ node : Place, found = .inst cls arguments (some (node, context)) ∧ node.key = key := by
  cases found with
  | inst cls' arguments' shown =>
    simp only [Value.map, Value.inst.injEq, Option.map_eq_some_iff] at h
    obtain ⟨rfl, rfl, shown, rfl, hshown⟩ := h
    cases hshown
    exact ⟨shown.1, rfl, rfl⟩
  | _ => cases h

/-- A display is evaluated to instances of the classes that are known for it. -/
theorem displayInstance_of_known {name : String} {classes : ValueSet}
    (hclasses : s.builtinClasses[Text.ofString name]? = some classes) (hne : classes.ids ≠ [])
    (hconsistent : s.values.Consistent) (hplaces : s.Places root) (hdisplay : display ∈ root.walk)
    (context : ValueId) (calls : Calls) :
    ∃ set t values, displayInstance context display name calls s = (.ok set, t) ∧
      s.Interns values t ∧ t.Places root ∧ t.Displays context display set := by
  obtain ⟨set, t, hrun, hinterns, hsome, hids⟩ :=
    gather_intern (fun cls => .inst cls 0 (some (display, context))) classes.ids calls s
  have hlater : t.Places root := by
    refine hinterns.places hplaces fun cls arguments shown scope hmem => ?_
    obtain ⟨_, -, heq⟩ := List.mem_map.mp hmem
    cases heq
    exact hdisplay
  refine ⟨set, t, _, ?_, hinterns, hlater, hsome hne, fun id hid => ?_⟩
  · rw [displayInstance, bind_of_ok (builtinClass_of_known hclasses)]
    exact hrun
  · obtain ⟨cls, hcls, hhandle⟩ := (hids id).mp hid
    obtain ⟨found, hget, hkey⟩ :=
      Option.map_eq_some_iff.mp ((hinterns.consistent hconsistent _ _).mp hhandle)
    obtain ⟨node, rfl, hnode⟩ := exists_of_map_eq_inst hkey
    obtain rfl := hlater.eq_of_key hget hdisplay hnode
    simp [Values.display?, ValueSet.only?, ValueSet.single, hget]

/-- The instances of the builtin class of lists. -/
theorem builtinInstance_list (hequipped : s.Equipped root value context) (calls : Calls) :
    ∃ classes set t, builtinInstance "list" calls s = (.ok set, t) ∧
      t.builtinClasses[Text.ofString "list"]? = some classes ∧ set.ids ≠ [] ∧
      ∀ id, id ∈ set.ids ↔ ∃ cls ∈ classes.ids, t.values.get? id = some (.inst cls 0 none) := by
  obtain ⟨classes, hclasses, hne, hclass⟩ := hequipped.lists
  obtain ⟨set, t, hrun, hinterns, hsome, hids⟩ :=
    gather_intern (fun cls => .inst cls 0 none) classes.ids calls s
  have hfilter : classes.filter s.values.isClass = classes := by
    rw [ValueSet.filter, List.filter_eq_self.mpr hclass]
  have hget (cls id : ValueId) : t.values.find? (·.map Place.key)
    ((Value.inst cls 0 none).map Place.key) = some id ↔
      t.values.get? id = some (.inst cls 0 none) := by
    rw [hinterns.consistent hequipped.consistent, Option.map_eq_some_iff]
    constructor
    · rintro ⟨found, hfound, hkey⟩
      rw [hfound, Option.some.injEq]
      cases found with
      | inst cls' arguments shown =>
        simp only [Value.map, Value.inst.injEq, Option.map_none, Option.map_eq_none_iff] at hkey
        obtain ⟨rfl, rfl, rfl⟩ := hkey
        rfl
      | _ => cases hkey
    · exact fun hfound => ⟨_, hfound, rfl⟩
  refine ⟨classes, set, t, ?_, hinterns.classes ▸ hclasses, hsome hne, fun id => ?_⟩
  · have hquery : query (fun values => classes.filter values.isClass) calls s = (.ok classes, s) :=
      congrArg (fun found => (Except.ok found, s)) hfilter
    rw [builtinInstance, bind_of_ok (builtinClass_of_known hclasses), instancesOf,
      bind_of_ok hquery]
    exact hrun
  · simp only [hids, hget]

/-- A display in a value is evaluated to instances of itself. -/
theorem eval_display {elements : List Place} (hequipped : s.Equipped root value context)
    (hvalue : value ∈ root.walk) (hdisplay : display ∈ value.walk)
    (helements : display.sequence? = some elements) (depth : Nat) :
    ∃ set t, eval context display (engine (depth + 1)) s = (.ok set, t) ∧
      t.Displays context display set ∧
      t.Equipped root value context ∧ ∀ q, q ≠ .eval display.key context →
      t.memo.find? q = s.memo.find? q := by
  have hsequence : display.sequence?.isSome = true := by rw [helements]; rfl
  rcases hequipped.displays display hdisplay hsequence with hnew | ⟨set, hdone, hdisplays⟩
  · let marked := Session.memoSlot.update (·.start (.eval display.key context) none) s
    have hwalk := Place.mem_walk_of_mem_walk hvalue hdisplay
    obtain ⟨name, classes, hname, hclasses, hne⟩ : ∃ name classes,
        computeEval context display = displayInstance context display name ∧
          marked.builtinClasses[Text.ofString name]? = some classes ∧ classes.ids ≠ [] := by
      rcases Place.form_of_sequence? helements with hform | hform
      · obtain ⟨classes, hfound, hne⟩ := hequipped.tuples
        exact ⟨"tuple", classes, by rw [computeEval, hform], hfound, hne⟩
      · obtain ⟨classes, hfound, hne, -⟩ := hequipped.lists
        exact ⟨"list", classes, by rw [computeEval, hform], hfound, hne⟩
    obtain ⟨set, u, values, hrun, hinterns, hplaces, hdisplays⟩ :=
      displayInstance_of_known (s := marked) hclasses hne
      hequipped.consistent hequipped.places hwalk context (engine depth)
    rw [← hname] at hrun
    have hothers (q : Question) (hq : q ≠ .eval display.key context) :
        (Session.memoSlot.update (·.finish (.eval display.key context) set) u).memo.find? q =
          s.memo.find? q := by
      refine (Memo.find?_finish_of_ne hq).trans ?_
      rw [hinterns.memo]
      exact Memo.find?_start_of_ne hq
    refine ⟨set, _, MemoSlot.answer_of_ok hnew hrun, hdisplays, ?_, hothers⟩
    refine hequipped.later hinterns.keeps (hinterns.consistent hequipped.consistent) hplaces
      hinterns.classes ?_
    intro other hother _
    by_cases hsame : other = display
    · subst hsame
      exact .inr ⟨set, Memo.find?_finish_self .., hdisplays⟩
    · have hkey : other.key ≠ display.key := fun hkey =>
        hsame (List.inj_on_of_nodup_map value.nodup_walk hother hdisplay hkey)
      exact .inl (hothers _ (by simpa using hkey))
  · have hkept := hequipped.of_matches (t := Session.memoSlot.update (·.hit) s)
      ⟨fun _ _ => rfl, rfl, rfl⟩
    exact ⟨set, _, MemoSlot.answer_of_done hdone, hdisplays, hkept, fun _ _ => rfl⟩

/-- Evaluating a recorded expression for each of several values adds nothing new. -/
theorem foldlM_eval {f : ValueId → Infer ValueSet} (ids : List ValueId) (out : ValueSet)
    (hf : ∀ id ∈ ids, ∀ t, s.values.Keeps t.values →
      f id (engine (depth + 1)) t = eval context node (engine (depth + 1)) t)
    (hrecords : s.Records context node set) (hout : ∀ id, id ∈ out.ids ↔ id ∈ set.ids) :
    ∃ last t, (ids.foldlM (fun out id => return out.join (← f id)) out : Infer ValueSet)
    (engine (depth + 1)) s =
      (.ok last, t) ∧ s.Matches t ∧ ∀ id, id ∈ last.ids ↔ id ∈ set.ids := by
  induction ids generalizing s out with
  | nil => exact ⟨out, s, rfl, .refl s, hout⟩
  | cons id rest ih =>
    obtain ⟨t, hrun, hmatches⟩ := eval_of_records hrecords depth
    rw [← hf id List.mem_cons_self s (.refl _)] at hrun
    obtain ⟨last, u, hrest, hmatches', hlast⟩ := ih (s := t) (out.join set)
      (fun other hother u hu => hf other (List.mem_cons_of_mem _ hother) u (hmatches.values ▸ hu))
      (hrecords.of_matches hmatches) (by simp [hout])
    refine ⟨last, u, ?_, hmatches.trans hmatches', hlast⟩
    rw [List.foldlM_cons, bind_of_ok ((bind_of_ok hrun).trans rfl)]
    exact hrest

/-- Evaluating one expression for each of several values gives what evaluating it once gives. -/
theorem collect_eval {ids : List ValueId} {f : ValueId → Infer ValueSet} (hne : ids ≠ [])
    (hf : ∀ id ∈ ids, ∀ t, s.values.Keeps t.values →
      f id (engine (depth + 1)) t = eval context node (engine (depth + 1)) t) :
    (∃ t, eval context node (engine (depth + 1)) s = (.error .nestedTooDeeply, t) ∧
        collect ids f (engine (depth + 1)) s = (.error .nestedTooDeeply, t)) ∨
      ∃ found t out u, eval context node (engine (depth + 1)) s = (.ok found, t) ∧
        collect ids f (engine (depth + 1)) s = (.ok out, u) ∧ t.Matches u ∧ ∀ id, id ∈ out.ids ↔
        id ∈ found.ids := by
  obtain ⟨id, rest, rfl⟩ := List.exists_cons_of_ne_nil hne
  have hfirst := hf id List.mem_cons_self s (.refl _)
  cases hrun : eval context node (engine (depth + 1)) s with
  | mk outcome t =>
    rw [hrun] at hfirst
    cases outcome with
    | error e =>
      obtain rfl := failsDeep_eval context node (depth + 1) s e t hrun
      refine .inl ⟨t, rfl, ?_⟩
      rw [collect, List.foldlM_cons, bind_apply, bind_apply, hfirst]
    | ok found =>
      have hevolves := evolves_of_run (steady_engine (depth + 1)) hrun
      obtain ⟨last, u, hrest, hmatches, hlast⟩ := foldlM_eval rest (ValueSet.join ∅ found)
        (fun other hother u hu => hf other (List.mem_cons_of_mem _ hother) u
          (hevolves.values.trans hu)) (records_of_eval hrun) (by simp)
      refine .inr ⟨found, t, last, u, rfl, ?_, hmatches, hlast⟩
      rw [collect, List.foldlM_cons, bind_of_ok ((bind_of_ok hfirst).trans rfl)]
      exact hrest

/-- What instances of a display have at a number is what the item there is evaluated to. -/
theorem itemsAt_of_displays {elements : List Place} {element : Place} {i : Nat}
    (hdisplays : s.Displays context display set) (helements : display.sequence? = some elements)
    (hplain : elements.any Place.isStarred = false) (hi : elements[i]? = some element) :
    (∃ t, eval context element (engine (depth + 1)) s = (.error .nestedTooDeeply, t) ∧
        itemsAt set i (engine (depth + 1)) s = (.error .nestedTooDeeply, t)) ∨
      ∃ found t out u, eval context element (engine (depth + 1)) s = (.ok found, t) ∧
        itemsAt set i (engine (depth + 1)) s = (.ok out, u) ∧ t.Matches u ∧ ∀ id, id ∈ out.ids ↔
        id ∈ found.ids := by
  refine collect_eval hdisplays.1 fun id hid t hkeeps => ?_
  have hdisplay := (hdisplays.keeps hkeeps).2 id hid
  have hfront : (elements.take (i + 1)).any Place.isStarred = false := by
    rw [List.any_eq_false] at hplain ⊢
    exact fun e he => hplain e (List.mem_of_mem_take he)
  have hquery : query (·.display? (.single id)) (engine (depth + 1)) t =
      (.ok (some (display, context)), t) := by
    rw [← hdisplay]
    rfl
  rw [bind_of_ok hquery]
  rcases Place.form_of_sequence? helements with hform | hform <;> simp [hform, hi, hfront]

end Infer

end NameInference
