import NameInference.Proofs.Unpack.Displays

/-!
# Unpacking in an assignment

* `Infer.unpackTarget_of_receives`: going down the target and the values at once leads to the item
  that a name gets if items are counted from the front.
* `Infer.inferBinding_unpacks`: so a name that stands behind no star is inferred to what the
  language gives to it. A name behind a star is inferred to another item
  (`Infer.inferBinding_misses_unpackSample`).
-/

namespace NameInference

open Place Unpack

/-- What is recorded for a name that gets an item is recorded for the item. A star gives instances
of the builtin class of lists. -/
def Session.Assigned (s : Session) (context : ValueId) (set : ValueSet) : Received → Prop
  | .item element => ∃ found, s.Records context element found ∧ ∀ id, id ∈ set.ids ↔ id ∈ found.ids
  | .rest => ∃ classes, s.builtinClasses[Text.ofString "list"]? = some classes ∧ set.ids ≠ [] ∧
    ∀ id, id ∈ set.ids ↔ ∃ cls ∈ classes.ids, s.values.get? id = some (.inst cls 0 none)

theorem Session.Assigned.of_matches {s t : Session} {context : ValueId} {set : ValueSet}
    {received : Received} (h : s.Assigned context set received) (hmatches : s.Matches t) :
    t.Assigned context set received := by
  cases received with
  | item element =>
    obtain ⟨found, hrecords, hids⟩ := h
    exact ⟨found, hrecords.of_matches hmatches, hids⟩
  | rest =>
    obtain ⟨classes, hclasses, hne, hids⟩ := h
    exact ⟨classes, hmatches.classes ▸ hclasses, hne, hmatches.values ▸ hids⟩

namespace Place

variable {p q : Place}

theorem depth_le_of_mem_walk (h : q ∈ p.walk) : p.depth ≤ q.depth := by
  simpa [path, depth] using (suffix_of_mem_walk h).length_le

theorem same_eq_false (h : p.depth < q.depth) : p.same q = false := by
  rw [same, beq_eq_false_iff_ne]
  intro hkey
  have hlength := congrArg (·.path.length) hkey
  simp only [key, path, List.length_map] at hlength
  exact absurd hlength (Nat.ne_of_lt h)

theorem mem_walk_of_assign {root value : Place} {targets : List Place} {hint : Option Place}
    (hp : p ∈ root.walk) (hform : p.form = .assign targets hint (some value)) :
    value ∈ root.walk := by
  refine mem_walk_of_mem_children hp ?_
  rw [← parts_form, hform]
  simp [Form.parts]

end Place

namespace Infer

variable {s t : Session} {root whole target value wanted : Place} {context : ValueId}
  {set : ValueSet} {depth n : Nat} {received : Received} {targets : List Place} {i : Nat}

/-- Going down a pattern goes to the element above the wanted place. -/
theorem unpackTarget_of_sequence {t : Place} (hpattern : target.sequence? = some targets)
    (hplace : targets[i]? = some t) (hwanted : wanted ∈ t.walk) :
    unpackTarget (n + 1) set target wanted =
      if t.isStarred then builtinInstance "list"
      else itemsAt set i >>= (unpackTarget n · t wanted) := by
  have hheld := elementHolding?_eq (covers_target hpattern hplace hwanted) hplace
  have hdepth : t.depth = target.depth + 1 := by
    obtain ⟨n, rfl⟩ := exists_enter_of_getElem? (sequence?_eq_children hpattern ▸ hplace)
    rfl
  have hsame : target.same wanted = false := by
    refine same_eq_false (Nat.lt_of_lt_of_le ?_ (depth_le_of_mem_walk hwanted))
    omega
  rw [unpackTarget, if_neg (by simp [hsame])]
  rcases form_of_sequence? hpattern with hform | hform <;> simp only [hform, hheld]

/-- The values that a name gets are those of its item, counted from the front; the item itself may
nest too deeply. -/
theorem unpackTarget_of_receives (hreceives : Receives fromFront target value wanted received)
    (hwhole : whole ∈ root.walk) (hvalue : value ∈ whole.walk)
    (hn : wanted.depth - target.depth < n) (hset : s.Assigned context set (.item value))
    (hdisplays : value.sequence?.isSome = true → s.Displays context value set ∧
      s.Equipped root whole context) : (∃ element u v, received = .item element ∧
        eval context element (engine (depth + 1)) u = (.error .nestedTooDeeply, v) ∧
        unpackTarget n set target wanted (engine (depth + 1)) s = (.error .nestedTooDeeply, v)) ∨
      ∃ out t, unpackTarget n set target wanted (engine (depth + 1)) s = (.ok out, t) ∧
        t.Assigned context out received := by
  induction hreceives generalizing n s set with
  | @whole target value id form =>
    obtain ⟨n, rfl⟩ := Nat.exists_eq_add_one_of_ne_zero (Nat.ne_of_gt (Nat.zero_lt_of_lt hn))
    refine .inr ⟨set, s, ?_, hset⟩
    rw [unpackTarget, if_pos (by simp [Place.same])]
    rfl
  | @rest target value t wanted targets items i id pattern display plain fits place star form =>
    obtain ⟨n, rfl⟩ := Nat.exists_eq_add_one_of_ne_zero (Nat.ne_of_gt (Nat.zero_lt_of_lt hn))
    have hwanted := mem_walk_of_mem_children t.mem_walk_self (mem_children_of_starred star)
    obtain ⟨-, hequipped⟩ := hdisplays (by rw [display]; rfl)
    obtain ⟨classes, out, u, hrun, hclasses, hne, hids⟩ :=
      builtinInstance_list hequipped (engine (depth + 1))
    refine .inr ⟨out, u, ?_, classes, hclasses, hne, hids⟩
    rw [unpackTarget_of_sequence pattern place hwanted, if_pos (isStarred_of_form star), hrun]
  | @item target value t v wanted targets items i received pattern display plain fits place single
      given inner ih =>
    obtain ⟨n, rfl⟩ := Nat.exists_eq_add_one_of_ne_zero (Nat.ne_of_gt (Nat.zero_lt_of_lt hn))
    obtain ⟨hshown, hequipped⟩ := hdisplays (by rw [display]; rfl)
    change items[i]? = some v at given
    rw [unpackTarget_of_sequence pattern place inner.mem_walk, if_neg (by simp [single])]
    have hv : v ∈ whole.walk := by
      obtain rfl := sequence?_eq_children display
      exact mem_walk_of_mem_children hvalue (List.mem_of_getElem? given)
    have hitem {elements : List Place} (hsequence : v.sequence? = some elements) :=
      eval_display hequipped hwhole hv hsequence depth
    obtain ⟨u, herror, hitems⟩ | ⟨found, u, out, w, hfound, hitems, hmatches, hids⟩ :=
      itemsAt_of_displays hshown display plain given
    · refine .inl ⟨v, s, u, ?_, herror, ?_⟩
      · refine inner.eq_item (Option.eq_none_iff_forall_ne_some.mpr fun elements hsequence => ?_)
        obtain ⟨found, u, hok, -⟩ := hitem hsequence
        cases hok.symm.trans herror
      · rw [bind_apply, hitems]
    · rw [bind_of_ok hitems]
      refine ih hv ?_ ⟨found, (records_of_eval hfound).of_matches hmatches,
        hids⟩ fun hsequence => ?_
      · have ht : t.depth = target.depth + 1 := by
          obtain ⟨n, rfl⟩ := exists_enter_of_getElem? (sequence?_eq_children pattern ▸ place)
          rfl
        have hle := depth_le_of_mem_walk inner.mem_walk
        omega
      · obtain ⟨elements, hsequence⟩ := Option.isSome_iff_exists.mp hsequence
        obtain ⟨found', u', hok, hdisplays', hequipped', -⟩ := hitem hsequence
        cases hok.symm.trans hfound
        exact ⟨(hdisplays'.keeps (hmatches.values ▸ .refl _)).congr hids,
          hequipped'.of_matches hmatches⟩

variable {definition : Place} {b : Binding}

/-- An assignment unpacks its values into the target that the name is in. -/
theorem assignedValue_eq (hform : definition.form = .assign targets none (some value))
    (htarget : target ∈ targets) (hwanted : wanted ∈ target.walk) :
    assignedValue context definition .assignment wanted = eval context value >>=
      (unpackTo · target wanted) := by
  obtain ⟨i, hi⟩ := List.mem_iff_getElem?.mp htarget
  have hchildren (k : Nat) (e : Place) (hk : targets[k]? = some e) : definition.children[k]? =
      some e := by
    rw [← parts_form, hform, Form.parts, Option.toList_none, List.append_nil,
      List.getElem?_append_left (List.getElem?_eq_some_iff.mp hk).1, hk]
  have hfound : targets.find? (·.covers wanted) = some target := by
    refine find?_covers (fun k e hk => ?_) hi
    obtain ⟨inner, hpath⟩ := suffix_of_mem_walk hwanted
    obtain ⟨n, rfl⟩ := exists_enter_of_getElem? (hchildren i target hi)
    have htree : definition.tree = wanted.tree := (tree_of_mem_walk hwanted).symm
    exact covers_of_getElem? htree hpath.symm (hchildren k e hk)
  unfold assignedValue
  simp only [hform, pure_bind, hfound]
  rfl

/-- The values that an assignment gives to a name are those of the item that the name gets. -/
theorem assignedValue_of_receives (hform : definition.form = .assign targets none (some value))
    (htarget : target ∈ targets) (hreceives : Receives fromFront target value wanted received)
    (hvalue : value ∈ root.walk) (hequipped : s.Equipped root value context) (depth : Nat) :
    (∃ element u v, received = .item element ∧
        eval context element (engine (depth + 1)) u = (.error .nestedTooDeeply, v) ∧
        assignedValue context definition .assignment wanted (engine (depth + 1)) s =
          (.error .nestedTooDeeply, v)) ∨
      ∃ out t, assignedValue context definition .assignment wanted (engine (depth + 1)) s =
        (.ok out, t) ∧ t.Assigned context out received := by
  rw [assignedValue_eq hform htarget hreceives.mem_walk]
  have hitem {elements : List Place} (hsequence : value.sequence? = some elements) :=
    eval_display hequipped hvalue value.mem_walk_self hsequence depth
  cases hfirst : eval context value (engine (depth + 1)) s with
  | mk outcome u =>
    cases outcome with
    | error e =>
      obtain rfl := failsDeep_eval context value (depth + 1) s e u hfirst
      have hplain : value.sequence? = none := by
        refine Option.eq_none_iff_forall_ne_some.mpr fun elements hsequence => ?_
        obtain ⟨found, v, hok, -⟩ := hitem hsequence
        cases hok.symm.trans hfirst
      exact .inl ⟨value, s, u, hreceives.eq_item hplain, hfirst, by rw [bind_apply, hfirst]⟩
    | ok found =>
      rw [bind_of_ok hfirst]
      refine unpackTarget_of_receives hreceives hvalue value.mem_walk_self (Nat.lt_succ_self _)
        ⟨found, records_of_eval hfirst, fun _ => .rfl⟩ fun hsequence => ?_
      obtain ⟨elements, hsequence⟩ := Option.isSome_iff_exists.mp hsequence
      obtain ⟨found', u', hok, hdisplays, hlater, -⟩ := hitem hsequence
      cases hok.symm.trans hfirst
      exact ⟨hdisplays, hlater⟩

/-- The session in which the values of an assignment are computed for a name. -/
def opened (b : Binding) (context : ValueId) (s : Session) : Session :=
  let marked := Session.memoSlot.update (·.start (.binding b.name.key context) none) s
  { marked with trace := marked.trace.indent }

theorem matches_opened (b : Binding) (context : ValueId) (s : Session) :
    s.Matches (opened b context s) :=
  ⟨fun _ _ => Memo.find?_start_of_ne (by simp), rfl, rfl⟩

theorem computeBinding_opened (hkind : b.kind = .assignment) (context : ValueId) (calls : Calls)
    (s : Session) :
    computeBinding b context calls
      (Session.memoSlot.update (·.start (.binding b.name.key context) none) s) =
      let run := assignedValue context b.definition .assignment b.name calls (opened b context s)
      (run.1, { run.2 with trace := run.2.trace.outdent }) := by
  rw [computeBinding, hkind, indented_apply]
  rfl

/-- The first inference of a name in an assignment gives what the assignment gives. -/
theorem inferBinding_of_ok {out : ValueSet} (hkind : b.kind = .assignment)
    (hfirst : s.memo.find? (.binding b.name.key context) = none)
    (hrun : assignedValue context b.definition .assignment b.name (engine depth)
      (opened b context s) = (.ok out, t)) :
    ∃ u, inferBinding context b (engine (depth + 1)) s = (.ok out, u) ∧ t.Matches u := by
  have hcompute := computeBinding_opened hkind context (engine depth) s
  rw [hrun] at hcompute
  exact ⟨_, MemoSlot.answer_of_ok hfirst hcompute, fun _ _ => Memo.find?_finish_of_ne (by simp),
    rfl, rfl⟩

theorem inferBinding_of_error (hkind : b.kind = .assignment)
    (hfirst : s.memo.find? (.binding b.name.key context) = none)
    (hrun : assignedValue context b.definition .assignment b.name (engine depth)
      (opened b context s) = (.error .nestedTooDeeply, t)) :
    ∃ u, inferBinding context b (engine (depth + 1)) s = (.error .nestedTooDeeply, u) := by
  have hcompute := computeBinding_opened hkind context (engine depth) s
  rw [hrun] at hcompute
  exact ⟨_, MemoSlot.answer_of_failed hfirst hcompute rfl⟩

end Infer

/-- What a name has that gets an item is what the item is evaluated to; a name with a star has the
instances of the builtin class of lists. -/
def Session.Has (s : Session) (depth : Nat) (context : ValueId) (set : ValueSet) : Received → Prop
  | .item element => ∃ values t, Infer.eval context element (engine depth) s = (.ok values, t) ∧
    ∀ id, id ∈ set.ids ↔ id ∈ values.ids
  | .rest => ∃ classes, s.builtinClasses[Text.ofString "list"]? = some classes ∧ set.ids ≠ [] ∧
    ∀ id, id ∈ set.ids ↔ ∃ cls ∈ classes.ids, s.values.get? id = some (.inst cls 0 none)

theorem Session.Assigned.has {s : Session} {context : ValueId} {set : ValueSet}
    {received : Received} (h : s.Assigned context set received) (depth : Nat) :
    s.Has (depth + 1) context set received := by
  cases received with
  | item element =>
    obtain ⟨found, hrecords, hids⟩ := h
    obtain ⟨t, hrun, -⟩ := Infer.eval_of_records hrecords depth
    exact ⟨found, t, hrun, hids⟩
  | rest => exact h

namespace Infer

variable {s : Session} {root target value : Place} {context : ValueId} {targets : List Place}
  {received : Received} {b : Binding}

/-- A name that is inferred for the first time has what it gets if items are counted from the front,
unless evaluating its item nests too deeply. -/
theorem inferBinding_of_receives (hkind : b.kind = .assignment)
    (hform : b.definition.form = .assign targets none (some value)) (htarget : target ∈ targets)
    (hreceives : Receives fromFront target value b.name received) (hvalue : value ∈ root.walk)
    (hequipped : s.Equipped root value context)
    (hfirst : s.memo.find? (.binding b.name.key context) = none) (depth : Nat) :
    (∃ element u v w, received = .item element ∧
        eval context element (engine (depth + 1)) u = (.error .nestedTooDeeply, v) ∧
        inferBinding context b (engine (depth + 2)) s = (.error .nestedTooDeeply, w)) ∨
      ∃ set t, inferBinding context b (engine (depth + 2)) s = (.ok set, t) ∧
        t.Has (depth + 2) context set received := by
  obtain ⟨element, u, v, hreceived, herror, hrun⟩ | ⟨out, t, hrun, hassigned⟩ :=
    assignedValue_of_receives hform htarget hreceives hvalue
      (hequipped.of_matches (matches_opened b context s)) depth
  · obtain ⟨w, hfailed⟩ := inferBinding_of_error hkind hfirst hrun
    exact .inl ⟨element, u, v, w, hreceived, herror, hfailed⟩
  · obtain ⟨u, hok, hmatches⟩ := inferBinding_of_ok hkind hfirst hrun
    exact .inr ⟨out, u, hok, (hassigned.of_matches hmatches).has (depth + 1)⟩

theorem failsDeep_inferBinding (b : Binding) (context : ValueId) (depth : Nat) :
    FailsDeep (inferBinding context b) (engine depth) := by
  intro s e t hrun
  cases depth with
  | zero => cases hrun; rfl
  | succ depth => exact Session.eq_nestedTooDeeply_of_answer hrun

/-- Without a further step, not even the assigned value can be evaluated. -/
theorem inferBinding_one (hkind : b.kind = .assignment)
    (hform : b.definition.form = .assign targets none (some value)) (htarget : target ∈ targets)
    (hwanted : b.name ∈ target.walk) (hfirst : s.memo.find? (.binding b.name.key context) = none) :
    ∃ t, inferBinding context b (engine 1) s = (.error .nestedTooDeeply, t) := by
  refine inferBinding_of_error hkind hfirst (t := opened b context s) ?_
  rw [assignedValue_eq hform htarget hwanted]
  rfl

/-- A name in the target of an assignment of a display is inferred to what the language gives to it,
if it stands behind no star; any name is inferred to what it would get if all items were counted
from the front. -/
theorem inferBinding_unpacks {m : Module} {tree : Nat} (hkind : b.kind = .assignment)
    (hdefinition : b.definition ∈ (Place.root tree m).walk)
    (hform : b.definition.form = .assign targets none (some value)) (htarget : target ∈ targets)
    (hequipped : s.Equipped (Place.root tree m) value context)
    (hfirst : s.memo.find? (.binding b.name.key context) = none) (depth : Nat) :
    (∃ t, inferBinding context b (engine depth) s = (.error .nestedTooDeeply, t)) ∨
      ∃ set t, inferBinding context b (engine depth) s = (.ok set, t) ∧
        (∀ received, Receives fromEnds target value b.name received →
          target.isBehindStar b.name = false → t.Has depth context set received) ∧
        ∀ received, Receives fromFront target value b.name received →
          t.Has depth context set received := by
  have hvalue := mem_walk_of_assign hdefinition hform
  have hfront : ∀ received, Receives fromFront target value b.name received → ∀ set t,
      inferBinding context b (engine depth) s = (.ok set, t) →
      t.Has depth context set received := by
    intro received hreceives set t hrun
    cases depth with
    | zero => cases hrun
    | succ depth =>
      cases depth with
      | zero =>
        obtain ⟨u, herror⟩ := inferBinding_one hkind hform htarget hreceives.mem_walk hfirst
        cases herror.symm.trans hrun
      | succ depth =>
        obtain ⟨-, -, -, u, -, -, herror⟩ | ⟨set', u, hok, hhas⟩ :=
          inferBinding_of_receives hkind hform htarget hreceives hvalue hequipped hfirst depth
        · cases herror.symm.trans hrun
        · cases hok.symm.trans hrun
          exact hhas
  cases hrun : inferBinding context b (engine depth) s with
  | mk outcome t =>
    cases outcome with
    | error e =>
      obtain rfl := failsDeep_inferBinding b context depth s e t hrun
      exact .inl ⟨t, rfl⟩
    | ok set =>
      refine .inr ⟨set, t, rfl, fun received hreceives hbehind => ?_, fun received hreceives => ?_⟩
      · exact hfront received (hreceives.fromFront_of_inFront hbehind) set t hrun
      · exact hfront received hreceives set t hrun

end Infer

/-- Displays that are unpacked, with classes that stand in for those of lists and tuples. -/
def Source.unpackSample : Source :=
  ⟨"class list: pass\nclass tuple: pass\na, [b, *c] = 1, (2, 3, 4)\na, *b, c = 1, 2, 3, 4\n", []⟩

/-- The target and the value of an assignment to one target. -/
def Place.assignment? (p : Place) : Option (Place × Place) :=
  match p.form with
  | .assign [target] none (some value) => some (target, value)
  | _ => none

theorem Place.assignment?_eq_some {p : Place} {found : Place × Place}
    (h : p.assignment? = some found) :
    p.form = .assign [found.1] none (some found.2) := by
  unfold assignment? at h
  split at h
  · next hform => cases h; exact hform
  · cases h

/-- A session that knows a class of lists and a class of tuples. -/
def Session.ofClasses (list tuple : Place) : Session where
  values := (({} : Values).internAll (·.map Place.key)
    [.module { tree := some 0, names := ["t"] }, .cls list 0, .cls tuple 0]).2
  builtinClasses := (({} : Std.HashMap Text ValueSet).insert "list" (.single 1)).insert
    (Text.ofString "tuple") (.single 2)

theorem Session.equipped_ofClasses {list tuple : Place} (hne : list.key ≠ tuple.key)
    (root value : Place) (context : ValueId) :
    (ofClasses list tuple).Equipped root value context := by
  have hget (id : ValueId) : (ofClasses list tuple).values.get? id =
      [Value.module { tree := some 0, names := ["t"] }, .cls list 0, .cls tuple 0][id]? := by
    refine Arena.get?_internAll ?_ id
    simpa [Value.map] using hne
  refine ⟨(Arena.holds_internAll _ _).consistent, fun id cls arguments display scope hfound _ => ?_,
    ?_, ?_, ?_⟩
  · rw [hget] at hfound
    have hmem := List.mem_of_getElem? hfound
    simp at hmem
  · exact ⟨.single 2, by simp [ofClasses], by simp [ValueSet.single]⟩
  · refine ⟨.single 1, ?_, by simp [ValueSet.single], fun cls hcls => ?_⟩
    · have htexts : Text.ofString "tuple" ≠ Text.ofString "list" := by decide +kernel
      rw [ofClasses, Std.HashMap.getElem?_insert, if_neg (by simpa using htexts),
        Std.HashMap.getElem?_insert_self]
    · obtain rfl : cls = 1 := by simpa [ValueSet.single] using hcls
      simp [Values.isClass, Values.test, hget, Value.isClass]
  · exact fun display _ _ => .inl Memo.find?_empty

/-- The number that a place is. -/
def Place.int? (p : Place) : Option Text :=
  match p.node.form with
  | .int text => some text
  | _ => none

theorem Place.int?_eq_some {p : Place} {text : Text} (h : p.int? = some text) :
    p.node.form = .int text := by
  unfold int? at h
  split at h
  · next hform => cases h; exact hform
  · cases h

theorem Unpack.Receives.of_id? {rule : List Place → Nat → Nat → Nat} {target value : Place}
    {id : Text} (h : target.id? = some id) : Receives rule target value target (.item value) := by
  have hform : target.form = .name id := by
    rw [Place.form, form_eq_name h]
    rfl
  exact .whole hform

/-- The two classes of the sample and its two assignments: a name in front of a star and a name
behind one, with the numbers that they get. -/
theorem Module.exists_unpackSample :
    ∃ m, Module.ofSource .unpackSample = .ok m ∧
      (∃ list ∈ (Place.root 0 m).walk, ∃ tuple ∈ (Place.root 0 m).walk, list.isClass = true ∧
        tuple.isClass = true ∧ list.key ≠ tuple.key) ∧
      (∃ stmt ∈ (Place.root 0 m).walk, ∃ parts, stmt.assignment? = some parts ∧
        ∃ inner, step? fromEnds parts.1 parts.2 1 = some inner ∧
        ∃ found, step? fromEnds inner.1 inner.2 0 = some found ∧
          found.1.id? = some "b" ∧ parts.1.isBehindStar found.1 = false ∧
          found.2.int? = some "2") ∧
      ∃ stmt ∈ (Place.root 0 m).walk, ∃ parts, stmt.assignment? = some parts ∧
        ∃ found, step? fromEnds parts.1 parts.2 2 = some found ∧
        ∃ other, step? fromFront parts.1 parts.2 2 = some other ∧
          found.1.id? = some "c" ∧ found.2.int? = some "4" ∧
          other.2.int? = some "3" ∧ found.2.key ≠ parts.2.key ∧ other.2.key ≠ parts.2.key ∧
          found.2.key ≠ other.2.key := by
  have hfound : (Module.ofSource .unpackSample).map (fun m =>
      ((Place.root 0 m).walk.any fun list => (Place.root 0 m).walk.any fun tuple =>
        list.isClass && tuple.isClass && list.key != tuple.key) &&
      ((Place.root 0 m).walk.any fun stmt => stmt.assignment?.any fun parts =>
        (step? fromEnds parts.1 parts.2 1).any fun inner =>
          (step? fromEnds inner.1 inner.2 0).any fun found =>
          found.1.id? == some (Text.ofString "b") && !parts.1.isBehindStar found.1 &&
          found.2.int? == some (Text.ofString "2")) &&
      ((Place.root 0 m).walk.any fun stmt => stmt.assignment?.any fun parts =>
        (step? fromEnds parts.1 parts.2 2).any fun found =>
          (step? fromFront parts.1 parts.2 2).any fun other =>
          found.1.id? == some (Text.ofString "c") && found.2.int? == some (Text.ofString "4") &&
          other.2.int? == some (Text.ofString "3") && found.2.key != parts.2.key &&
          other.2.key != parts.2.key && found.2.key != other.2.key)) = .ok true := by decide +kernel
  obtain ⟨m, h, hany⟩ := exists_of_map_eq_ok hfound
  simp only [List.any_eq_true, Bool.and_eq_true, Option.any_eq_true, Bool.not_eq_true', beq_iff_eq,
    bne_iff_ne, and_assoc] at hany
  exact ⟨m, h, hany⟩

namespace Infer

theorem inferBinding_unpacks_unpackSample :
    ∃ m, Module.ofSource .unpackSample = .ok m ∧
      ∃ (s : Session) (b : Binding) (target value element : Place),
      b.kind = .assignment ∧ b.definition ∈ (Place.root 0 m).walk ∧
      b.definition.form = .assign [target] none (some value) ∧ s.Equipped (Place.root 0 m) value 0 ∧
      s.memo.find? (.binding b.name.key 0) = none ∧
      Receives fromEnds target value b.name (.item element) ∧
      target.isBehindStar b.name = false ∧ element.node.form = .int "2" ∧
      ∀ depth, ∃ set t, inferBinding 0 b (engine (depth + 2)) s = (.ok set, t) ∧
        t.Has (depth + 2) 0 set (.item element) := by
  obtain ⟨m, h, ⟨list, -, tuple, -, -, -, hne⟩,
    ⟨stmt, hstmt, parts, hparts, inner, hinner, found, hfound, hid, hbehind, hint⟩,
    -⟩ := Module.exists_unpackSample
  let b : Binding := ⟨found.1, "b", stmt, .assignment, Place.root 0 m⟩
  have hform := assignment?_eq_some hparts
  have hequipped := Session.equipped_ofClasses hne (Place.root 0 m) parts.2 0
  have hfirst : (Session.ofClasses list tuple).memo.find? (.binding b.name.key 0) = none :=
    Memo.find?_empty
  have hreceives : Receives fromEnds parts.1 parts.2 b.name (.item found.2) :=
    .of_step? hinner (.of_step? hfound (.of_id? hid))
  have htarget : parts.1 ∈ [parts.1] := List.mem_singleton_self _
  refine ⟨m, h, Session.ofClasses list tuple, b, parts.1, parts.2, found.2, rfl, hstmt, hform,
    hequipped, hfirst, hreceives, hbehind, int?_eq_some hint, fun depth => ?_⟩
  obtain ⟨t, hfailed⟩ | ⟨set, t, hok, hhas, -⟩ :=
    inferBinding_unpacks rfl hstmt hform htarget hequipped hfirst (depth + 2)
  · obtain ⟨element, u, v, w, heq, herror, -⟩ | ⟨set, u, hok, -⟩ :=
      inferBinding_of_receives rfl hform htarget
      (hreceives.fromFront_of_inFront hbehind) (mem_walk_of_assign hstmt hform) hequipped
        hfirst depth
    · cases heq
      obtain ⟨set, v', hok⟩ : ∃ set t, eval 0 found.2 (engine (depth + 1)) u = (.ok set, t) :=
        exists_eval_int depth (int?_eq_some hint) u
      cases hok.symm.trans herror
    · cases hok.symm.trans hfailed
  · exact ⟨set, t, hok, hhas _ hreceives hbehind⟩

/-- A name behind a star is inferred to the item that is counted from the front, which the language
gives to the star. -/
theorem inferBinding_misses_unpackSample :
    ∃ m, Module.ofSource .unpackSample = .ok m ∧
      ∃ (s : Session) (b : Binding) (target value element : Place),
      b.kind = .assignment ∧ b.definition ∈ (Place.root 0 m).walk ∧
      b.definition.form = .assign [target] none (some value) ∧ s.Equipped (Place.root 0 m) value 0 ∧
      s.memo.find? (.binding b.name.key 0) = none ∧
      Receives fromEnds target value b.name (.item element) ∧
      ∀ depth, ∃ set t, inferBinding 0 b (engine (depth + 2)) s = (.ok set, t) ∧
        ¬ t.Has (depth + 2) 0 set (.item element) := by
  obtain ⟨m, h, ⟨list, -, tuple, -, -, -, hne⟩, -, stmt, hstmt, parts, hparts, found, hfound, other,
    hother, hid, hfour, hthree, hfourth, hthird, hapart⟩ := Module.exists_unpackSample
  let s := Session.ofClasses list tuple
  let b : Binding := ⟨found.1, "c", stmt, .assignment, Place.root 0 m⟩
  have hform := assignment?_eq_some hparts
  have hequipped := Session.equipped_ofClasses hne (Place.root 0 m) parts.2 0
  have hreceives : Receives fromEnds parts.1 parts.2 b.name (.item found.2) :=
    .of_step? hfound (.of_id? hid)
  refine ⟨m, h, s, b, parts.1, parts.2, found.2, rfl, hstmt, hform, hequipped, Memo.find?_empty,
    hreceives, fun depth => ?_⟩
  obtain ⟨targets, items, htargets, hitems, htarget, hgiven, hplain, -, hsingle⟩ :=
    step?_eq_some hfound
  obtain ⟨targets', items', htargets', hitems', -, hgiven', -⟩ := step?_eq_some hother
  cases htargets.symm.trans htargets'
  cases hitems.symm.trans hitems'
  change items[2]? = some other.2 at hgiven'
  -- The display is evaluated first, then the number that the star should get.
  have hopened := hequipped.of_matches (matches_opened b 0 s)
  obtain ⟨shown, u, hshown, hdisplays, hequipped', hothers⟩ :=
    eval_display hopened (mem_walk_of_assign hstmt hform) parts.2.mem_walk_self hitems depth
  have hnew (node : Place) (hkey : node.key ≠ parts.2.key) : u.memo.find? (.eval node.key 0) =
      none := by
    rw [hothers _ (by simpa using hkey), (matches_opened b 0 s).memo]
    exact Memo.find?_empty
  obtain ⟨v, hvalue, hvalues, hanswers⟩ :=
    eval_int_of_new depth (int?_eq_some hthree) (hnew other.2 hthird)
  obtain ⟨_, herror, -⟩ | ⟨set, v', out, w, heval, hrun, hmatches, hids⟩ :=
    itemsAt_of_displays hdisplays hitems hplain hgiven'
  · cases hvalue.symm.trans herror
  cases hvalue.symm.trans heval
  have hassigned : assignedValue 0 b.definition .assignment b.name (engine (depth + 1))
      (opened b 0 s) = (.ok out, w) := by
    rw [assignedValue_eq hform (List.mem_singleton_self _) hreceives.mem_walk, bind_of_ok hshown,
      unpackTo, unpackTarget_of_sequence htargets htarget found.1.mem_walk_self,
      if_neg (by simp [hsingle]), bind_of_ok hrun]
    cases b.name.depth - parts.1.depth with
    | zero => rfl
    | succ n =>
      rw [unpackTarget, if_pos (by simp [Place.same])]
      rfl
  obtain ⟨t, hok, hmatches'⟩ := inferBinding_of_ok rfl Memo.find?_empty hassigned
  refine ⟨out, t, hok, ?_⟩
  -- The last number is a value of its own.
  rintro ⟨values, z, hlast, hsame⟩
  have hlater : t.memo.find? (.eval found.2.key 0) = none := by
    rw [hmatches'.memo, hmatches.memo, hanswers _ (by simpa using hapart), hnew found.2 hfourth]
  obtain ⟨z', hvalue', -⟩ := eval_int_of_new (depth + 1) (int?_eq_some hfour) hlater
  cases hvalue'.symm.trans hlast
  have hdiffer : (t.intern (.ofInt (Text.ofString "4"))).1 ≠
      (u.intern (.ofInt (Text.ofString "3"))).1 := by
    have hkept : t.values = (u.intern (.ofInt (Text.ofString "3"))).2.values :=
      hmatches'.values.trans (hmatches.values.trans hvalues)
    have htexts : Text.ofString "3" ≠ Text.ofString "4" := by decide +kernel
    change (Arena.intern (·.map Place.key) t.values _).1 ≠ _
    rw [hkept]
    exact hequipped'.consistent.intern_ne (by simpa [Value.ofInt, Value.map] using htexts)
  have hmem := (hsame (t.intern (.ofInt (Text.ofString "4"))).1).mpr (by simp [ValueSet.single])
  exact hdiffer (by simpa [ValueSet.single] using (hids _).mp hmem)

end Infer

end NameInference
