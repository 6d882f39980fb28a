import NameInference.Command.Diagnosis
import NameInference.Proofs.Progress.Rejection
import NameInference.Proofs.Text.Terminators

/-!
# The line under a fault

A rejected source is shown with the line of the rejection. Positions count the physical lines, which
end at LF, CR LF or CR and begin behind the byte order mark; shown are the pieces between line
feeds. The two have the same numbers as long as no CR ends a line by itself.
-/

namespace NameInference

open List

namespace Lines

/-- A piece between line feeds without the CR of its terminator. -/
def withoutReturn (piece : Text) : Text :=
  if piece.getLast? = some 0x0D then piece.dropLast else piece

/-- In the first `n` pieces a CR stands at the end only. -/
def ReturnsEnd (n : Nat) (pieces : List Text) : Prop :=
  ∀ piece ∈ pieces.take n, 0x0D ∉ piece.dropLast

theorem withoutReturn_cons {b : UInt8} (hb : b ≠ 0x0D) (piece : Text) :
    withoutReturn (b :: piece) = b :: withoutReturn piece := by
  cases piece with
  | nil => simp [withoutReturn, hb]
  | cons c piece =>
    simp only [withoutReturn, getLast?_cons_cons, dropLast_cons_cons]
    split <;> rfl

theorem ReturnsEnd.tail {n : Nat} {piece : Text} {pieces : List Text}
    (h : ReturnsEnd (n + 1) (piece :: pieces)) : ReturnsEnd n pieces :=
  fun p hp => h p (by simp [hp])

/-- Without its first byte, a text has no more CRs in its pieces. -/
theorem ReturnsEnd.of_cons {b : UInt8} {n : Nat} {t : Text} (hb : b ≠ 0x0A)
    (h : ReturnsEnd n (pieces (b :: t))) :
    ReturnsEnd n (pieces t) := by
  rw [pieces_cons hb] at h
  cases hpieces : pieces t with
  | nil => simp [ReturnsEnd]
  | cons piece more =>
    rw [hpieces] at h
    cases n with
    | zero => simp [ReturnsEnd]
    | succ n =>
      refine forall_mem_cons.mpr ⟨fun hmem => ?_, h.tail⟩
      refine h (b :: piece) (by simp) ?_
      cases piece with
      | nil => cases hmem
      | cons c piece => exact mem_cons_of_mem b hmem

/-- As long as a CR stands at the end of a piece only, the lines are the pieces without it. -/
theorem take_split {t : Text} {n : Nat} (h : ReturnsEnd n (pieces t)) :
    (split t).take n = ((pieces t).take n).map withoutReturn := by
  cases n with
  | zero => rfl
  | succ n =>
  fun_induction split t generalizing n with
  | case1 => simp [pieces, Text.splitOn]
  | case2 rest ih =>
    rw [pieces_cons_lf] at h ⊢
    cases n with
    | zero => rfl
    | succ n => simpa [withoutReturn] using ih n h.tail
  | case3 rest ih =>
    rw [pieces_cons (by decide), pieces_cons_lf] at h ⊢
    cases n with
    | zero => rfl
    | succ n => simpa [withoutReturn] using ih n h.tail
  | case4 rest hlf ih =>
    cases rest with
    | nil => simp [pieces, Text.splitOn, split, withoutReturn]
    | cons c rest =>
      rw [pieces_cons (by decide), pieces_cons fun hc => hlf rest (hc ▸ rfl)] at h
      exact absurd (h _ mem_cons_self) (by simp)
  | case5 b rest hlf _ hcr hsplit ih =>
    have hrest := ih n (h.of_cons hlf)
    rw [hsplit] at hrest
    rw [pieces_cons hlf]
    cases hpieces : pieces rest with
    | nil => simpa [withoutReturn] using hcr
    | cons piece more => simp [hpieces] at hrest
  | case6 b rest hlf _ hcr line lines hsplit ih =>
    have hrest := ih n (h.of_cons hlf)
    rw [hsplit] at hrest
    rw [pieces_cons hlf]
    cases hpieces : pieces rest with
    | nil => simp [hpieces] at hrest
    | cons piece more =>
      rw [hpieces] at hrest
      simpa [withoutReturn_cons hcr] using hrest

private theorem getElem?_pieces {t : Text} {k : Nat} {line : Text}
    (h : ReturnsEnd (k + 1) (pieces t)) (hline : (split t)[k]? = some line) :
    ∃ piece, (pieces t)[k]? = some piece ∧
      piece = line ++ if piece.getLast? = some 0x0D then [0x0D] else [] := by
  have hk := congrArg (·[k]?) (take_split h)
  simp only [getElem?_take, getElem?_map, Nat.lt_succ_self, if_true, hline] at hk
  obtain ⟨piece, hpiece, rfl⟩ := Option.map_eq_some_iff.mp hk.symm
  refine ⟨piece, hpiece, ?_⟩
  unfold withoutReturn
  split
  · next hlast => exact (dropLast_append_getLast? _ hlast).symm
  · exact (append_nil piece).symm

/-- As long as a CR stands at the end of a piece only, a piece is the line of its number, with the
mark in front of the first one and the CR of its terminator. -/
theorem exists_piece {content : Text} {k : Nat} {line : Text}
    (h : ReturnsEnd (k + 1) (pieces content)) (hline : (ofText content)[k]? = some line) :
    ∃ piece, (pieces content)[k]? = some piece ∧
      piece = (if k = 0 ∧ content.startsWith byteOrderMark then byteOrderMark else []) ++ line ++
        if piece.getLast? = some 0x0D then [0x0D] else [] := by
  by_cases hmark : content.startsWith byteOrderMark = true
  · obtain ⟨t, rfl⟩ := isPrefixOf_iff_prefix.mp hmark
    have hoften : ofText (byteOrderMark ++ t) = split t := by
      rw [ofText, withoutMark, if_pos hmark]
      rfl
    have ht : ReturnsEnd (k + 1) (pieces t) :=
      ((h.of_cons (by decide)).of_cons (by decide)).of_cons (by decide)
    obtain ⟨piece, hpiece, heq⟩ := getElem?_pieces ht (hoften ▸ hline)
    have hpieces : pieces (byteOrderMark ++ t) = (byteOrderMark ++ (pieces t).headD []) ::
        (pieces t).tail := by
      simp [byteOrderMark, pieces_cons]
    cases k with
    | zero =>
      refine ⟨byteOrderMark ++ piece, ?_, ?_⟩
      · rw [hpieces, getElem?_cons_zero, headD_eq_head?_getD, head?_eq_getElem?, hpiece]
        rfl
      · rw [if_pos ⟨rfl, hmark⟩, append_assoc]
        congr 1
        cases piece with
        | nil => simpa [byteOrderMark] using heq
        | cons c piece => simpa [byteOrderMark] using heq
    | succ k =>
      refine ⟨piece, ?_, by simpa using heq⟩
      rw [hpieces, getElem?_cons_succ, ← hpiece]
      simp
  · have hplain : ofText content = split content := by simp [ofText, withoutMark, hmark]
    simpa [hmark] using getElem?_pieces h (hplain ▸ hline)

end Lines

theorem Diagnosis.linesOf_eq (content : Text) : linesOf content = Lines.pieces content := by
  simp [linesOf, Lines.pieces]

/-- A rejected source is shown with its message and, below it, the piece between line feeds that has
the number of the line, if there is one, and a caret under the column. As long as a CR stands at the
end of a piece only, up to this one, it is the line that was counted, with the byte order mark in
front of the first line and the CR of its terminator; so it is exactly the line if it is not the
first one behind a mark and does not end in CR LF. -/
theorem Diagnosis.render_rejected {files : Files} {path content : Text} {e : SyntaxError}
    (hfile : files.content? path = some content)
    (hrejected : Module.ofSource ⟨content, path⟩ = .error e) (hfirst : 1 ≤ e.position.line)
    (hlast : e.position.line ≤ (Lines.ofText content).length) (message : Text) (colored : Bool) :
    let d : Diagnosis := ⟨message, path, e.position.line, e.position.col⟩
    let front := d.header colored ++ styled colored "31" "error: " ++ message ++ "\n"
    let under (line : Text) : Text :=
      "  " ++ line ++ "\n  " ++ Text.blanks (e.position.col - 1) ++ "^\n"
    d.render files colored =
        front ++ ((Lines.pieces content)[e.position.line - 1]?.map under).getD [] ∧
      ∃ line, (Lines.ofText content)[e.position.line - 1]? = some line ∧
        (Lines.ReturnsEnd e.position.line (Lines.pieces content) →
          ∃ piece, (Lines.pieces content)[e.position.line - 1]? = some piece ∧
            piece =
              (if e.position.line = 1 ∧ content.startsWith Lines.byteOrderMark then
                Lines.byteOrderMark else [])
              ++ line ++ if piece.getLast? = some 0x0D then [0x0D] else []) := by
  intro d front under
  have hcol : 1 ≤ e.position.col := by
    rcases (Module.sited_of_rejected hrejected).2 with hposition | hend
    · exact hposition.choose_spec.2.1
    · rw [hend]
  have hline : e.position.line - 1 < (Lines.ofText content).length := by omega
  constructor
  · have hpath : path.isEmpty = false := by
      cases path with
      | nil => cases hfile
      | cons b path => rfl
    have hsource : d.source files = ((Lines.pieces content)[e.position.line - 1]?.map under).getD
        [] := by
      rw [source, if_neg (by simp [d, hpath]; omega), hfile, Option.bind_some, linesOf_eq]
      simp only [d, Int.toNat_natCast]
      cases (Lines.pieces content)[e.position.line - 1]? with
      | none => rfl
      | some piece => rfl
    rw [render, hsource]
  · refine ⟨_, getElem?_eq_getElem hline, fun hreturns => ?_⟩
    rw [← Nat.sub_add_cancel hfirst] at hreturns
    have hzero : e.position.line - 1 = 0 ↔ e.position.line = 1 := by omega
    simpa only [hzero] using Lines.exists_piece hreturns (getElem?_eq_getElem hline)

/-- A text with a parenthesis too many on its second line. -/
def Source.rejectedSample (ending : Text) : Source := ⟨"x\r\ny = )" ++ ending, "a"⟩

/-- The file with this text. -/
def Files.rejectedSample (ending : Text) : Files :=
  { contents := [(["a"], (Source.rejectedSample ending).text)] }

theorem Diagnosis.render_rejected_sample :
    ∃ e line piece, Module.ofSource (.rejectedSample "\n") = .error e ∧ e.position = ⟨2, 5⟩ ∧
      (Lines.ofText (Source.rejectedSample "\n").text)[1]? = some line ∧
      (Lines.pieces (Source.rejectedSample "\n").text)[1]? = some piece ∧
      piece = line ++ if piece.getLast? = some 0x0D then [0x0D] else [] := by
  have hrun : (Module.ofSource (.rejectedSample "\n")).map (fun _ => ()) =
      .error ⟨"a", ⟨2, 5⟩, .grammar .expectedExpression .rparen ")"⟩ := by decide +kernel
  have hfile : (Files.rejectedSample "\n").content? "a" =
    some (Source.rejectedSample "\n").text := by decide +kernel
  cases h : Module.ofSource (.rejectedSample "\n") with
  | ok m =>
    rw [h] at hrun
    cases hrun
  | error e =>
    rw [h] at hrun
    cases hrun
    obtain ⟨-, line, hline, hpiece⟩ :=
      render_rejected hfile h (by decide) (by decide +kernel) [] false
    obtain ⟨piece, hpiece, heq⟩ := hpiece (show ∀ piece ∈ _, _ by decide +kernel)
    exact ⟨_, line, piece, rfl, rfl, hline, hpiece, heq⟩

/-- A line that ends in CR LF is shown with the CR. -/
theorem Diagnosis.render_shows_return :
    (Module.ofSource (.rejectedSample "\r\n")).map (fun _ => ()) =
        .error ⟨"a", ⟨2, 5⟩, .grammar .expectedExpression .rparen ")"⟩ ∧
      (Lines.ofText (Source.rejectedSample "\r\n").text)[1]? = some (Text.ofString "y = )") ∧
      (⟨[], "a", 2, 5⟩ : Diagnosis).render (.rejectedSample "\r\n") false =
        "a:2:5: error: \n  y = )\r\n      ^\n" := by
  decide +kernel

end NameInference
