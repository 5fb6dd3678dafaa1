import ApiTypings.Proofs.CommentEnds
import ApiTypings.Proofs.Except
import ApiTypings.Proofs.Layout
/-!
# The lines of a comment

A comment is written line by line, and what indents it puts the indentation of the place in front of
every line. So the comment is indented throughout only if no line has a line break inside.

* A description is cut at its line breaks. The texts of parameters, of a result, of a deprecation and
  of tags each go into one line as they are, so this line is as unbroken as the text
  (`Doc.forall_unbroken_tagLines_iff`).
* A line with a line break inside is two lines of the file, and only the first one is indented
  (`Doc.indentation_reaches_iff`).

Main statement: every line is a line of the file exactly if these texts have no line breaks
(`Doc.lines_unbroken_iff`).
-/

namespace ApiTypings

/-! ### Line breaks -/

/-- There is no line break in a text. -/
def Unbroken (s : String) : Prop :=
  '\n' ∉ s.toList

instance (s : String) : Decidable (Unbroken s) :=
  inferInstanceAs (Decidable (_ ∉ _))

/-- The lines of a text as a file has them: what stands between line breaks. -/
def physicalLines (s : String) : List String :=
  (s.toList.splitOn '\n').map String.ofList

theorem unbroken_append {s s' : String} : Unbroken (s ++ s') ↔ Unbroken s ∧ Unbroken s' := by
  simp [Unbroken, not_or]

theorem newline_mem_escapeCommentEnds {cs : List Char} :
    '\n' ∈ escapeCommentEnds cs ↔ '\n' ∈ cs := by
  fun_induction escapeCommentEnds cs with
  | case1 rest ih => simp [ih]
  | case2 c rest _ ih => simp [ih]
  | case3 => rfl

/-- Escaping the ends of comments adds no line break and takes none away. -/
theorem unbroken_commentText {s : String} : Unbroken (commentText s) ↔ Unbroken s := by
  rw [Unbroken, commentText, String.toList_ofList, newline_mem_escapeCommentEnds, Unbroken]

/-! ### Cutting at line breaks -/

theorem newline_not_mem_piece (cs : List Char) : ∀ piece ∈ cs.splitOn '\n', '\n' ∉ piece := by
  induction cs with
  | nil => simp
  | cons c cs ih =>
    rw [List.splitOn_cons_eq_if_modifyHead]
    split
    · exact List.forall_mem_cons.2 ⟨List.not_mem_nil, ih⟩
    · next hc =>
      -- The character goes to the front of the first piece.
      cases hpieces : cs.splitOn '\n' with
      | nil => exact List.forall_mem_nil _
      | cons first rest =>
        rw [hpieces, List.forall_mem_cons] at ih
        have hne : '\n' ≠ c := fun h => hc (beq_iff_eq.2 h.symm)
        rw [List.modifyHead_cons, List.forall_mem_cons, List.mem_cons, not_or]
        exact ⟨⟨hne, ih.1⟩, ih.2⟩

theorem length_splitOn_newline (cs : List Char) :
    (cs.splitOn '\n').length = cs.count '\n' + 1 := by
  induction cs with
  | nil => rfl
  | cons c cs ih =>
    rw [List.splitOn_cons_eq_if_modifyHead, List.count_cons]
    split
    · rw [List.length_cons, ih]
    · rw [List.length_modifyHead, ih]

/-- What is put in front of a text without breaking it goes to the front of the first line. -/
theorem splitOn_append_of_not_mem {front : List Char} (hfront : '\n' ∉ front) (cs : List Char) :
    (front ++ cs).splitOn '\n' = (cs.splitOn '\n').modifyHead (front ++ ·) := by
  induction front with
  | nil =>
    rw [List.nil_append]
    cases cs.splitOn '\n' <;> rfl
  | cons c front ih =>
    rw [List.mem_cons, not_or] at hfront
    have hc : ¬(c == '\n') = true := fun h => hfront.1 (beq_iff_eq.1 h).symm
    rw [List.cons_append, List.splitOn_cons_eq_if_modifyHead, if_neg hc, ih hfront.2,
      List.modifyHead_modifyHead]
    rfl

theorem physicalLines_append {front : String} (hfront : Unbroken front) (s : String) :
    physicalLines (front ++ s) = (physicalLines s).modifyHead (front ++ ·) := by
  rw [physicalLines, String.toList_append, splitOn_append_of_not_mem hfront, physicalLines]
  cases s.toList.splitOn '\n' with
  | nil => rfl
  | cons first rest => simp

/-- The lines of texts that are joined are those of each one. -/
theorem physicalLines_intercalate {lines : List String} (hne : lines ≠ []) :
    physicalLines ("\n".intercalate lines) = lines.flatMap physicalLines := by
  induction lines with
  | nil => exact absurd rfl hne
  | cons line lines ih =>
    cases lines with
    | nil => simp
    | cons next lines =>
      have hchars : ("\n".intercalate (line :: next :: lines)).toList =
          line.toList ++ '\n' :: ("\n".intercalate (next :: lines)).toList := by
        rw [String.intercalate_cons_cons]
        simp
      rw [physicalLines, hchars, List.splitOn_append_cons_self, List.map_append, List.flatMap_cons,
        ← ih (List.cons_ne_nil _ _)]
      rfl

theorem length_physicalLines (s : String) : (physicalLines s).length = s.toList.count '\n' + 1 := by
  rw [physicalLines, List.length_map, length_splitOn_newline]

/-- **Something is in front of every line** only if there is no other line than the first. -/
theorem modifyHead_eq_map_iff {front : String} (hfront : front ≠ "") (s : String) :
    (physicalLines s).modifyHead (front ++ ·) = (physicalLines s).map (front ++ ·) ↔ Unbroken s := by
  have hlength := length_physicalLines s
  rw [Unbroken, ← List.count_eq_zero]
  cases hlines : physicalLines s with
  | nil =>
    rw [hlines] at hlength
    cases hlength
  | cons first rest =>
    rw [hlines, List.length_cons, Nat.add_right_cancel_iff] at hlength
    rw [List.modifyHead_cons, List.map_cons, List.cons_inj_right, ← hlength]
    cases rest with
    | nil => exact iff_of_true rfl rfl
    | cons second rest =>
      refine iff_of_false (fun heq => hfront ?_) (Nat.succ_ne_zero _)
      have hsecond : "" ++ second = front ++ second := by
        rw [String.empty_append]
        exact (List.cons.inj heq).1
      exact (String.append_left_inj _).1 hsecond.symm

/-- Lists that are joined from parts of the same lengths are the same only if the parts are. -/
theorem flatMap_eq_flatMap_iff {α β : Type} {f g : α → List β} (h : ∀ a, (f a).length = (g a).length)
    {as : List α} : as.flatMap f = as.flatMap g ↔ ∀ a ∈ as, f a = g a := by
  induction as with
  | nil => simp
  | cons a as ih =>
    rw [List.flatMap_cons, List.flatMap_cons, List.forall_mem_cons, ← ih]
    exact ⟨fun heq => List.append_inj heq (h a), fun ⟨hfirst, hrest⟩ => by rw [hfirst, hrest]⟩

/-- **Indenting lines indents what they are in the file** exactly if no line is broken. -/
theorem physicalLines_indented_iff {front : String} (hfront : Unbroken front) (hne : front ≠ "")
    {lines : List String} (hlines : lines ≠ []) :
    physicalLines ("\n".intercalate (lines.map (front ++ ·))) =
        (physicalLines ("\n".intercalate lines)).map (front ++ ·) ↔
      ∀ line ∈ lines, Unbroken line := by
  have hmap : lines.map (front ++ ·) ≠ [] := fun h => hlines (List.map_eq_nil_iff.1 h)
  rw [physicalLines_intercalate hmap, physicalLines_intercalate hlines, List.flatMap_map,
    List.map_flatMap]
  simp only [physicalLines_append hfront]
  rw [flatMap_eq_flatMap_iff fun line => by rw [List.length_modifyHead, List.length_map]]
  exact forall₂_congr fun line _ => modifyHead_eq_map_iff hne line

theorem mem_of_mem_trimEndChars {c : Char} {cs : List Char} (h : c ∈ trimEndChars cs) : c ∈ cs := by
  have hmem := (List.dropWhile_sublist _).subset (List.mem_reverse.1 h)
  exact List.mem_reverse.1 hmem

/-- **The lines of a text have no line breaks.** -/
theorem newline_not_mem_lineChars (cs : List Char) : ∀ line ∈ lineChars cs, '\n' ∉ line := by
  have hended : ∀ line ∈ (cs.splitOn '\n').dropLast.map dropReturn, '\n' ∉ line := by
    rw [List.forall_mem_map]
    intro piece hpiece hmem
    refine newline_not_mem_piece cs piece ((List.dropLast_sublist _).subset hpiece) ?_
    unfold dropReturn at hmem
    split at hmem
    · exact (List.dropLast_sublist _).subset hmem
    · exact hmem
  unfold lineChars
  dsimp only
  split
  · exact hended
  · exact hended
  · next rest _ hrest =>
    refine List.forall_mem_append.2 ⟨hended, List.forall_mem_singleton.2 ?_⟩
    exact newline_not_mem_piece cs rest (List.mem_of_getLast? hrest)

theorem unbroken_of_mem_textLines {s line : String} (h : line ∈ textLines s) :
    Unbroken (trimEnd line) := by
  obtain ⟨cs, hcs, rfl⟩ := List.mem_map.1 h
  rw [Unbroken, trimEnd, String.toList_ofList, String.toList_ofList]
  exact fun hmem => newline_not_mem_lineChars _ cs hcs (mem_of_mem_trimEndChars hmem)

/-! ### The lines of a comment -/

namespace Doc

variable {d : Doc}

/-- A description is cut at its line breaks. -/
theorem unbroken_of_mem_descriptionLines {line : String} (h : line ∈ d.descriptionLines) :
    Unbroken line := by
  unfold descriptionLines at h
  split at h
  · cases h
  · obtain ⟨part, hpart, rfl⟩ := List.mem_map.1 h
    exact unbroken_commentText.2 (unbroken_of_mem_textLines hpart)

/-- The texts that go into one line of a comment as they are have no line breaks. -/
structure HasUnbrokenTags (d : Doc) : Prop where
  params : ∀ p ∈ d.params, Unbroken p.1 ∧ Unbroken (trim p.2)
  returns : ∀ text ∈ d.returns, Unbroken (trim text)
  deprecated : ∀ text ∈ d.deprecated, Unbroken (trim text)
  tags : ∀ tag ∈ d.tags, Unbroken tag.text

theorem unbroken_param {name text : String} :
    Unbroken ("@param " ++ name ++ " " ++ commentText (trim text)) ↔
      Unbroken name ∧ Unbroken (trim text) := by
  have hword : Unbroken "@param " := by decide
  have hspace : Unbroken " " := by decide
  simp only [unbroken_append, unbroken_commentText, hword, hspace, true_and, and_true]

theorem unbroken_nonBlank? {s : String} :
    (∀ text ∈ nonBlank? s, Unbroken text) ↔ Unbroken (trim s) := by
  unfold nonBlank?
  split
  · next hempty =>
    have hunbroken : Unbroken (trim s) := by
      rw [hempty]
      decide
    exact iff_of_true forall_mem_none hunbroken
  · simp

theorem unbroken_returns {text : String} : Unbroken ("@returns " ++ commentText text) ↔ Unbroken text := by
  rw [unbroken_append, unbroken_commentText]
  exact and_iff_right (by decide)

theorem unbroken_deprecated {text : String} :
    Unbroken ("@deprecated " ++ commentText text) ↔ Unbroken text := by
  rw [unbroken_append, unbroken_commentText]
  exact and_iff_right (by decide)

theorem forall_unbroken_fixedTagLines_iff :
    (∀ line ∈ d.fixedTagLines, Unbroken line) ↔
      ((∀ p ∈ d.params, Unbroken p.1 ∧ Unbroken (trim p.2)) ∧
        ∀ text ∈ d.returns, Unbroken (trim text)) ∧ ∀ text ∈ d.deprecated, Unbroken (trim text) := by
  rw [fixedTagLines, List.forall_mem_append, List.forall_mem_append]
  refine and_congr (and_congr ?params ?returns) ?deprecated
  case params =>
    rw [List.forall_mem_map]
    exact forall₂_congr fun p _ => unbroken_param
  case returns =>
    rw [List.forall_mem_map]
    simp only [unbroken_returns, Option.mem_toList]
    cases d.returns with
    | none => exact iff_of_true forall_mem_none forall_mem_none
    | some text => simpa using unbroken_nonBlank?
  case deprecated =>
    rw [List.forall_mem_map]
    simp only [Option.mem_toList]
    refine forall₂_congr fun text _ => ?_
    rw [← unbroken_nonBlank?]
    cases nonBlank? text with
    | none => exact iff_of_true (by decide) forall_mem_none
    | some text => simpa using unbroken_deprecated

/-- Which lines of the tags are unbroken is a matter of their texts. -/
theorem forall_unbroken_tagLines_iff :
    (∀ line ∈ d.tagLines, Unbroken line) ↔ d.HasUnbrokenTags := by
  have hboth : (∀ line ∈ d.tagLines, Unbroken line) ↔
      (∀ line ∈ d.fixedTagLines, Unbroken line) ∧ ∀ tag ∈ d.tags, Unbroken tag.text := by
    simp only [mem_tagLines_iff, or_imp, forall_and, forall_exists_index, and_imp,
      forall_apply_eq_imp_iff₂]
  rw [hboth, forall_unbroken_fixedTagLines_iff]
  constructor
  · rintro ⟨⟨⟨hparams, hreturns⟩, hdeprecated⟩, htags⟩
    exact ⟨hparams, hreturns, hdeprecated, htags⟩
  · rintro ⟨hparams, hreturns, hdeprecated, htags⟩
    exact ⟨⟨⟨hparams, hreturns⟩, hdeprecated⟩, htags⟩

theorem unbroken_framedLine {line : String} : Unbroken (framedLine line) ↔ Unbroken line := by
  unfold framedLine
  split
  · next hempty =>
    rw [hempty]
    decide
  · rw [unbroken_append]
    exact and_iff_right (by decide)

/-- The layout breaks no line and mends none. -/
theorem forall_unbroken_lines_iff :
    (∀ line ∈ d.lines, Unbroken line) ↔ ∀ line ∈ d.body, Unbroken line := by
  have hopen : Unbroken "/** " := by decide
  have hend : Unbroken " */" := by decide
  have hframe : Unbroken "/**" := by decide
  unfold lines
  split
  · next hbody =>
    rw [hbody]
  · next only hbody =>
    rw [hbody, List.forall_mem_singleton, List.forall_mem_singleton, unbroken_append, unbroken_append]
    exact (and_iff_left hend).trans (and_iff_right hopen)
  · next hbody _ _ =>
    rw [List.forall_mem_cons, List.forall_mem_append, List.forall_mem_map, List.forall_mem_singleton]
    simp only [unbroken_framedLine, hframe, hend, true_and, and_true]

/-- Lines after the first one of a comment are framed. -/
theorem framed_of_mem_tail {line : String} (h : line ∈ d.lines.tail) :
    ∃ rest, line = " *" ++ rest := by
  have hne : d.lines ≠ [] := by
    intro hnil
    rw [hnil] at h
    cases h
  rcases lines_cases hne with ⟨only, -, hlines⟩ | hlines
  · rw [hlines] at h
    cases h
  · rw [hlines, List.tail_cons, List.mem_append, List.mem_singleton] at h
    rcases h with h | rfl
    · obtain ⟨text, -, rfl⟩ := List.mem_map.1 h
      unfold framedLine
      split
      · exact ⟨"", rfl⟩
      · exact ⟨" " ++ text, by simp [← String.toList_inj]⟩
    · exact ⟨"/", rfl⟩

/-- **The indentation reaches all of a comment** exactly if no line of it is broken. -/
theorem indentation_reaches_iff {unit : String} {level : ℕ}
    (hunit : Unbroken (indentation unit level)) (hne : indentation unit level ≠ "")
    (hlines : d.lines ≠ []) :
    physicalLines ("\n".intercalate (d.indentedLines unit level)) =
        (physicalLines d.text).map (indentation unit level ++ ·) ↔
      ∀ line ∈ d.lines, Unbroken line :=
  physicalLines_indented_iff hunit hne hlines

end Doc

/-- Both ways of writing a comment put the indentation in front of each of its lines. -/
theorem Writer.lines_eq_rawLines (w : Writer) (lines : List String) :
    w.lines lines = w.rawLines (lines.map (indentation w.unit w.level ++ ·)) := by
  have hraw := writes_rawLines (lines.map (indentation w.unit w.level ++ ·)) w
  rw [List.map_map] at hraw
  exact (writes_lines lines w).trans hraw.symm

namespace Doc

/-- **Every line of a comment is one line of the file** exactly if there is no line break in the texts
that go into one line as they are; a description may have any. The lines after the first one are
framed, and both writers put the indentation in front of each line, which reaches all lines of the
file under the same condition. -/
theorem lines_unbroken_iff (d : Doc) :
    ((∀ line ∈ d.lines, Unbroken line) ↔ d.HasUnbrokenTags) ∧
      (∀ line ∈ d.lines.tail, ∃ rest, line = " *" ++ rest) ∧
      (∀ w : Writer, w.lines d.lines = w.rawLines (d.indentedLines w.unit w.level)) ∧
      ∀ unit level, Unbroken (indentation unit level) → indentation unit level ≠ "" → d.lines ≠ [] →
        (physicalLines ("\n".intercalate (d.indentedLines unit level)) =
          (physicalLines d.text).map (indentation unit level ++ ·) ↔ d.HasUnbrokenTags) := by
  have hunbroken : (∀ line ∈ d.lines, Unbroken line) ↔ d.HasUnbrokenTags := by
    rw [forall_unbroken_lines_iff, forall_mem_body_iff (P := Unbroken) (by decide),
      forall_unbroken_tagLines_iff]
    exact and_iff_right fun line => unbroken_of_mem_descriptionLines
  refine ⟨hunbroken, fun line => framed_of_mem_tail, fun w => w.lines_eq_rawLines d.lines, ?_⟩
  intro unit level hunit hne hlines
  rw [indentation_reaches_iff hunit hne hlines, hunbroken]

/-- A description in two lines, and a result. -/
def describedFunction : Doc where
  description := some "Reads a text.\nFails if there is none."
  returns := some "The text."

theorem describedFunction_unbroken :
    describedFunction.HasUnbrokenTags ∧ (∀ line ∈ describedFunction.lines, Unbroken line) ∧
      physicalLines ("\n".intercalate (describedFunction.indentedLines defaultIndent 2)) =
        (physicalLines describedFunction.text).map (indentation defaultIndent 2 ++ ·) := by
  have htags : describedFunction.HasUnbrokenTags := by
    refine ⟨List.forall_mem_nil _, ?_, forall_mem_none, List.forall_mem_nil _⟩
    rintro text ⟨rfl⟩
    decide
  obtain ⟨hlines, -, -, hindented⟩ := lines_unbroken_iff describedFunction
  exact ⟨htags, hlines.2 htags,
    (hindented defaultIndent 2 (by decide) (by decide) (by decide)).2 htags⟩

/-- A result that is described in two lines. -/
def describedResult : Doc where
  returns := some "The text.\nEmpty if there is none."

/-- Its comment has one line, which is two lines of the file. The second of them is neither framed nor
indented. -/
theorem describedResult_broken :
    describedResult.lines = ["/** @returns The text.\nEmpty if there is none. */"] ∧
      ¬(∀ line ∈ describedResult.lines, Unbroken line) ∧
      physicalLines ("\n".intercalate (describedResult.indentedLines defaultIndent 2)) =
        ["    /** @returns The text.", "Empty if there is none. */"] :=
  ⟨by decide, by decide, by decide⟩

end Doc

end ApiTypings
