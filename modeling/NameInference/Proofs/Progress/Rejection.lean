import NameInference.Proofs.Progress.Statement
import NameInference.Proofs.Token.Reading

/-!
# Where sources are rejected

The lexer rejects a source at a position of its lines. The grammar rejects it at one of the tokens,
which begin at positions of the lines but for the end: that stands on the line after the last.
-/

namespace NameInference

variable {source : Source} {e : SyntaxError}

/-- The tokens of an accepted source begin at positions of its lines, up to the end behind the last
line. -/
theorem Source.outcome_stackedTokens (source : Source) :
    Layout.Outcome source.file source.lines
      (fun tokens => ∃ read, tokens = read ++ [source.endToken] ∧
        ∀ t ∈ read, t.file = source.file ∧ Lines.HasPosition source.lines t.start ∧ t.kind ≠ .done)
      (stackedTokens [source]) := by
  refine source.outcome_readTokens.bind fun read hread => .pure ?_
  obtain ⟨found, layout, hcloses⟩ := hread
  exact ⟨read, rfl, hcloses.sited⟩

/-- A source is rejected at a position of its lines, or at the end behind the last one. -/
theorem Module.sited_of_rejected (h : ofSource source = .error e) :
    e.file = source.file ∧
      (Lines.HasPosition source.lines e.position ∨ e.position = ⟨source.lines.length + 1, 1⟩) := by
  have houtcome := source.outcome_stackedTokens
  cases htokens : Source.stackedTokens [source] with
  | error fault =>
    rw [htokens] at houtcome
    rw [ofSource, htokens] at h
    cases h
    exact ⟨houtcome.1, Or.inl houtcome.2⟩
  | ok tokens =>
    rw [htokens] at houtcome
    obtain ⟨read, rfl, hread⟩ := houtcome
    have hended := ended_ofTokens ⟨read, source.endToken, rfl, rfl, fun t ht => (hread t ht).2.2⟩
    rw [ofSource, htokens] at h
    change ofTokens _ >>= _ = _ at h
    cases hmodule : ofTokens (read ++ [source.endToken]) with
    | error fault =>
      rw [hmodule] at hended h
      cases h
      obtain ⟨t, ht, _, -, rfl⟩ := hended
      rcases List.mem_append.mp ht with ht | ht
      · exact ⟨(hread t ht).1, Or.inl (hread t ht).2.1⟩
      · rw [List.mem_singleton.mp ht]
        exact ⟨rfl, Or.inr rfl⟩
    | ok m =>
      rw [hmodule] at h
      cases h

/-- Every rejection names the file and a position of the source: a line counted from one, up to the
one behind the last, and a column counted from one, up to the one behind the line. Behind the last
line it is the first column. -/
theorem Module.rejection_within_source (h : ofSource source = .error e) :
    e.file = source.file ∧ 1 ≤ e.position.line ∧ e.position.line ≤ source.lines.length + 1 ∧
      1 ≤ e.position.col ∧
      (∀ line, source.lines[e.position.line - 1]? = some line → e.position.col ≤ line.length + 1) ∧
      (e.position.line = source.lines.length + 1 → e.position.col = 1) := by
  obtain ⟨hfile, ⟨row, hrow, hcol, hlength⟩ | hend⟩ := sited_of_rejected h
  · obtain ⟨k, hk, hat⟩ := Lines.mem_numbered.mp hrow
    have hlt := (List.getElem?_eq_some_iff.mp hat).1
    refine ⟨hfile, by omega, by omega, hcol, fun line hline => ?_, by omega⟩
    rw [hk, Nat.add_sub_cancel, hat] at hline
    cases hline
    exact hlength
  · rw [hend]
    exact ⟨hfile, Nat.le_add_left 1 _, le_rfl, le_rfl, by simp, fun _ => rfl⟩

/-- A block that is missing, which is seen at the end only. -/
def Source.endSample : Source := ⟨"if f(\n 1):\n", "t.py"⟩

theorem Module.rejection_within_source_endSample :
    ∃ e, ofSource .endSample = .error e ∧ e.position = ⟨3, 1⟩ ∧ Source.endSample.lines.length = 2 ∧
      e.file = "t.py" ∧ e.position.line ≤ Source.endSample.lines.length + 1 := by
  have hrun : (ofSource .endSample).map (fun _ => ()) =
      .error ⟨"t.py", ⟨3, 1⟩, .grammar (.expected .indentedBlock) .done []⟩ := by decide +kernel
  cases h : ofSource .endSample with
  | ok m =>
    rw [h] at hrun
    cases hrun
  | error e =>
    rw [h] at hrun
    cases hrun
    obtain ⟨hfile, -, hline, -⟩ := rejection_within_source h
    exact ⟨_, rfl, rfl, by decide +kernel, hfile, hline⟩

end NameInference
