import NameInference.Proofs.Call.Binding
import NameInference.Proofs.Inference.Ensures
import NameInference.Inference.Arguments

/-!
# Which argument each parameter gets

Spreads are taken apart before arguments are matched: what comes out is a row of positional
arguments followed by keyword arguments. So the rule for arguments decides every call whose number
of arguments is known.
-/

namespace NameInference.Infer

/-- What an argument expression stands for has no keyword. -/
theorem unpackPositional_ensures (context : ValueId) (arg : Place) :
    Ensures (unpackPositional context arg) fun u => ∀ a ∈ u.items, a.keyword = none := by
  unfold unpackPositional
  split
  · refine ensures_bind fun spread => ensures_bind fun display => ?_
    split
    · exact ensures_pure (by simp)
    · exact ensures_bind fun items => ensures_pure (by simp)
  · exact ensures_pure (by simp)

/-- What a keyword stands for has keywords only. -/
theorem unpackKeyword_ensures (context : ValueId) (keyword : Keyword Place) :
    Ensures (unpackKeyword context keyword) fun u => ∀ a ∈ u.items, a.keyword.isSome = true := by
  unfold unpackKeyword
  split
  · exact ensures_pure (by simp)
  · refine ensures_bind fun spread => ensures_bind fun display => ?_
    split
    · refine ensures_pure ?_
      simp only [List.mem_map]
      rintro a ⟨entry, _, rfl⟩
      rfl
    · exact ensures_pure (by simp)

/-- The arguments of a call are positional ones followed by keyword arguments. -/
theorem unpack_ensures (list : ArgumentList Place) :
    Ensures (unpack list) fun u => ∃ given keys, u.items = given ++ keys ∧
      (∀ a ∈ given, a.keyword = none) ∧ ∀ a ∈ keys, a.keyword.isSome = true := by
  unfold unpack
  have hreceiver : ∀ a ∈ list.receiver.toList.map fun id =>
      ({ value := .values (.single id) } : Argument ArgumentSource), a.keyword = none := by simp
  split
  · intro calls s u s' hu
    obtain ⟨positional, t, hpositional, hu⟩ := bind_eq_ok_iff.mp hu
    obtain ⟨named, t', hnamed, hu⟩ := bind_eq_ok_iff.mp hu
    have hp := ensures_mapM (unpackPositional_ensures list.context) _ calls s positional t
      hpositional
    have hn := ensures_mapM (unpackKeyword_ensures list.context) _ calls t named t' hnamed
    obtain rfl : _ = u := by
      injection hu with hu
      injection hu
    refine ⟨list.receiver.toList.map (fun id => { value := .values (.single id) }) ++
      positional.flatMap (·.items), named.flatMap (·.items), by simp, ?_, ?_⟩
    · simp only [List.mem_append, List.mem_flatMap]
      rintro a (ha | ⟨u, hu, ha⟩)
      · exact hreceiver a ha
      · exact hp u hu a ha
    · simp only [List.mem_flatMap]
      rintro a ⟨u, hu, ha⟩
      exact hn u hu a ha
  · refine ensures_pure ⟨_, [], (List.append_nil _).symm, ?_, by simp⟩
    simp only [List.mem_append, List.mem_map]
    rintro a (⟨id, _, rfl⟩ | ⟨values, _, rfl⟩) <;> rfl

/-- Matching a call whose arguments are all known succeeds, and its issues are the faults of the
matching. -/
theorem matchArguments_of_unpack (fn : Place) {call : Place} {list : ArgumentList Place}
    {calls : Calls} {s s' : Session} {unpacked : UnpackedArguments} (hcall : list.call = some call)
    (hunpack : unpack list calls s = (.ok unpacked, s')) (hclosed : unpacked.isOpen = false) :
    ∃ issues, matchArguments fn list calls s =
        (.ok ((Matching.run fn.paramSpecs true unpacked.items).1, issues), s') ∧
      (issues = [] ↔ (Matching.run fn.paramSpecs true unpacked.items).2 = []) := by
  let issue (fault : CallFault) : Issue :=
    { kind := fault.kind
      message := fault.message fn.paramSpecs fn.shownName unpacked.items.length
      file := ((s'.tree? call.tree).map (·.module.file)).getD []
      position := fault.position?.getD call.start
      call }
  refine ⟨(Matching.run fn.paramSpecs true unpacked.items).2.map issue, ?_, List.map_eq_nil_iff⟩
  unfold matchArguments
  rw [bind_eq_ok_iff]
  refine ⟨unpacked, s', hunpack, ?_⟩
  simp only [hcall, hclosed]
  rfl

/-- Argument binding is the language's rule: the arguments of a call are positional ones followed by
keyword arguments; if their number is known and no keyword names a parameter that keywords cannot
name, no issue is reported exactly if the rule accepts the arguments, and then every parameter gets,
in order, what the rule gives it. -/
theorem matchArguments_follows_rule (fn call : Place) (list : ArgumentList Place) (calls : Calls)
    (s s' : Session) (unpacked : UnpackedArguments) (hcall : list.call = some call)
    (hunpack : unpack list calls s = (.ok unpacked, s')) (hclosed : unpacked.isOpen = false)
    (hcanonical : ParamSpec.Canonical fn.paramSpecs)
    (htakes : ∀ a ∈ unpacked.items, ∀ p ∈ fn.paramSpecs, a.keyword = some p.name →
      ParamSpec.takesKeyword p) :
    unpacked.items = Argument.positional unpacked.items ++ Argument.named unpacked.items ∧
      ∃ bound issues, matchArguments fn list calls s = (.ok (bound, issues), s') ∧
        (issues = [] ↔ Accepts fn.paramSpecs unpacked.items) ∧
        (issues = [] →
          bound = fn.paramSpecs.mapIdx (boundByRule fn.paramSpecs unpacked.items)) := by
  obtain ⟨given, keys, hitems, hgiven, hkeys⟩ := unpack_ensures list calls s unpacked s' hunpack
  obtain ⟨issues, hmatch, hissues⟩ := matchArguments_of_unpack fn hcall hunpack hclosed
  rw [hitems] at htakes hmatch hissues ⊢
  obtain ⟨haccepts, hbound⟩ := Matching.run_eq_rule hcanonical hgiven hkeys
    fun a ha => htakes a (List.mem_append_right _ ha)
  rw [haccepts] at hissues
  rw [Argument.positional_append hgiven hkeys, Argument.named_append hgiven hkeys]
  exact ⟨rfl, _, issues, hmatch, hissues, fun h => hbound (hissues.mp h)⟩

private def sampleName (id : Text) : Node := .mk default .store (.name id)

private def sampleParam (kind : ParamKind) (id : Text) (default? : Option Node) : Node :=
  .mk default .load (.param kind (sampleName id) none default?)

private def sampleInt (digit : UInt8) : Node := .mk default .load (.int [digit])

/-- The function `def f(a, b=1, *r, k, **m)`. -/
private def sampleFunction : Place :=
  ⟨0, .mk default .load (.functionDef false default [] (sampleName [0x66])
    [sampleParam .positionalOrKeyword [0x61] none,
     sampleParam .positionalOrKeyword [0x62] (some (sampleInt 0x31)),
      sampleParam .varPositional [0x72] none, sampleParam .keywordOnly [0x6B] none,
      sampleParam .varKeyword [0x6D] none] none []), []⟩

/-- The call `f(1, 2, 3, z=4, k=5)`. -/
private def sampleCall : Place :=
  ⟨0, .mk default .load (.call (sampleName [0x66]) [sampleInt 0x31, sampleInt 0x32, sampleInt 0x33]
    [⟨[0x7A], default, sampleInt 0x34⟩, ⟨[0x6B], default, sampleInt 0x35⟩]), []⟩

/-- Steps that lead nowhere. -/
private def sampleCalls : Calls :=
  ⟨fun _ => throw .nestedTooDeeply, fun _ _ _ => throw .nestedTooDeeply, fun _ _ =>
    throw .nestedTooDeeply, fun _ _ _ _ => throw .nestedTooDeeply, fun _ => throw .nestedTooDeeply⟩

private def sampleUnpacked : UnpackedArguments :=
  { items := (sampleCall.children.drop 1).zipWith
      (fun value keyword => { keyword, value := .expr value 0, position := default })
      [none, none, none, some [0x7A], some [0x6B]] }

/-- The rule decides the call `f(1, 2, 3, z=4, k=5)` of `def f(a, b=1, *r, k, **m)`. -/
theorem matchArguments_follows_rule_sample :
    (Matching.run sampleFunction.paramSpecs true sampleUnpacked.items).2 = [] ∧
      sampleUnpacked.items = Argument.positional sampleUnpacked.items ++
        Argument.named sampleUnpacked.items ∧
      ∃ bound issues, matchArguments sampleFunction { call := some sampleCall } sampleCalls {} =
          (.ok (bound, issues), {}) ∧
        (issues = [] ↔ Accepts sampleFunction.paramSpecs sampleUnpacked.items) ∧
        (issues = [] → bound =
          sampleFunction.paramSpecs.mapIdx
            (boundByRule sampleFunction.paramSpecs sampleUnpacked.items)) :=
  ⟨rfl, matchArguments_follows_rule sampleFunction sampleCall { call := some sampleCall }
    sampleCalls {} {} sampleUnpacked rfl rfl rfl ⟨by decide, by decide, by decide⟩ (by decide)⟩

end NameInference.Infer
