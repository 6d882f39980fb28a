import NameInference.Proofs.Span.Nesting
import NameInference.Proofs.Token.Hollow

/-!
# Blocks have statements

Below the statements of an accepted source a block is empty only where an indentation is left as
soon as it was entered. That happens only to an indentation that was entered for a hollow line:
every other block has a statement.
-/

namespace NameInference

/-- Every block of an accepted source has a statement, unless behind a colon of the statement that
opens it an indentation was entered for a line with nothing but a backslash, joined to nothing, and
left at once. -/
theorem Module.block_ne_nil_or_hollow {source : Source} {m : Module}
    (h : Module.ofSource source = .ok m) (tree : Nat) :
    ∃ tokens, Source.stackedTokens [source] = .ok tokens ∧
      ∀ p ∈ (Place.root tree m).walk, ∀ body ∈ p.node.form.block?, body ≠ [] ∨
        ∃ before colon newline indent dedent after,
          tokens = before ++ colon :: newline :: indent :: dedent :: after ∧ colon.kind = .colon ∧
          newline.kind = .newline ∧ indent.kind = .indent ∧ dedent.kind = .dedent ∧
          p.start ≤ colon.start ∧ colon.stop ≤ p.stop ∧
          Lines.HollowFrom source.lines indent.start.line := by
  obtain ⟨_, statements, htokens, hroot, harranged⟩ := arranged_of_ofSource h
  have hfilled : m.root.Filled := by
    refine .mk (by simp [hroot, Form.block?]) ?_
    rw [Node.children, hroot]
    exact fun n hn => harranged.filled (.statement, n) (List.mem_map_of_mem hn)
  have hwalk : ∀ p ∈ (Place.root tree m).walk, p.node.Filled :=
    Place.walk_induction (P := fun p => p.node.Filled)
      (fun _ hp _ hchild => hp.part _ (Place.exists_of_mem_children hchild).1) hfilled
  refine ⟨Reading.tokens, htokens, fun p hp body hbody => or_iff_not_imp_left.mpr fun hnil => ?_⟩
  obtain rfl := not_not.mp hnil
  obtain ⟨before, colon, newline, indent, dedent, after, hsplit, hcolon, hnewline, hindent, hdedent,
    hlo, hhi⟩ :=
    (hwalk p hp).block hbody
  refine ⟨before, colon, newline, indent, dedent, after, hsplit, hcolon, hnewline, hindent, hdedent,
    hlo, hhi, ?_⟩
  have hindented : Reading.tokens = (before ++ [colon, newline]) ++ indent :: dedent :: after := by
    simpa using hsplit
  exact Source.hollow_of_stackedTokens htokens hindented hindent hdedent

/-- A class with a method, branches and a handler; the block of the method is joined to a line with
a backslash. -/
def Source.blockSample : Source :=
  ⟨"class A:\n def f(x):\n  \\\n\n  if x: y\n  elif z:\n   try: y\n   except: pass\n", []⟩

theorem Module.block_ne_nil_or_hollow_blockSample :
    ∃ m, Module.ofSource .blockSample = .ok m ∧
      ((Place.root 0 m).walk.filterMap fun p => p.node.form.block?.map List.length) =
        [1, 1, 1, 1, 1, 1] ∧
      ∃ tokens, Source.stackedTokens [.blockSample] = .ok tokens ∧
        ∀ p ∈ (Place.root 0 m).walk, ∀ body ∈ p.node.form.block?, body ≠ [] ∨
          ∃ before colon newline indent dedent after,
            tokens = before ++ colon :: newline :: indent :: dedent :: after ∧ colon.kind = .colon ∧
            newline.kind = .newline ∧ indent.kind = .indent ∧ dedent.kind = .dedent ∧
            p.start ≤ colon.start ∧ colon.stop ≤ p.stop ∧
            Lines.HollowFrom Source.blockSample.lines indent.start.line := by
  have hblocks : (Module.ofSource .blockSample).map (fun m =>
      (Place.root 0 m).walk.filterMap fun p => p.node.form.block?.map List.length) =
        .ok [1, 1, 1, 1, 1, 1] := by
    decide +kernel
  obtain ⟨m, h, hm⟩ := exists_of_map_eq_ok hblocks
  exact ⟨m, h, hm, block_ne_nil_or_hollow h 0⟩

/-- A branch whose line has nothing but a backslash, which joins it to an empty line. -/
def Source.hollowSample : Source := ⟨"if x:\n    \\\n\ny\n", []⟩

/-- The block of a hollow line has no statement. -/
theorem Module.block_eq_nil_hollowSample :
    ∃ m, Module.ofSource .hollowSample = .ok m ∧
      ∃ p ∈ (Place.root 0 m).walk, p.label = "IfStmt" ∧ p.node.form.block? = some [] := by
  have hblocks : (Module.ofSource .hollowSample).map (fun m =>
      (Place.root 0 m).walk.filterMap fun p => p.node.form.block?.map fun body =>
        (p.label, body.length)) = .ok [("IfStmt", 0)] := by
    decide +kernel
  obtain ⟨m, h, hm⟩ := exists_of_map_eq_ok hblocks
  obtain ⟨p, hp, hblock⟩ := List.mem_filterMap.mp (hm.symm ▸ List.mem_singleton_self _)
  obtain ⟨body, hbody, hlength⟩ := Option.map_eq_some_iff.mp hblock
  obtain ⟨hlabel, hlength⟩ := Prod.mk.inj hlength
  exact ⟨m, h, p, hp, hlabel, by rw [hbody, List.length_eq_zero_iff.mp hlength]⟩

end NameInference
