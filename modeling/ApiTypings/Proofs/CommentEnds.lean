import Mathlib.Algebra.Ring.Nat
import ApiTypings.Declaration.Lowering
import ApiTypings.Proofs.Identifiers
import ApiTypings.Proofs.Repetitions
/-!
# Where a comment ends

A comment ends at the first star that is followed by a slash. Its text should have only one such
place, which is its own end, whatever the texts that it is made of.

* `commentEnds` counts these places. A space or a line break takes no part in any, so the places in
  a text are those in its words, and those in a comment are those in the lines of its body, and one
  more (`Doc.commentEnds_text`).
* Free text is escaped, so the lines of a description, of parameters, of a result and of a deprecation
  have none. The names in the tags of a feature are not escaped.

Main statement: a comment ends where its text does if and only if no name in its tags ends it before
(`Doc.closes_iff`).
-/

namespace ApiTypings

/-! ### Ends of comments -/

/-- How many times a star is followed by a slash. -/
def countEnds : List Char → ℕ
  | [] => 0
  | c :: cs => (if c = '*' ∧ cs.head? = some '/' then 1 else 0) + countEnds cs

/-- How many times a comment would end in a text. -/
def commentEnds (s : String) : ℕ :=
  countEnds s.toList

/-- **No end goes across another character.** -/
theorem countEnds_append_cons {c : Char} (hstar : c ≠ '*') (hslash : c ≠ '/') (xs ys : List Char) :
    countEnds (xs ++ c :: ys) = countEnds xs + countEnds ys := by
  induction xs with
  | nil => simp [countEnds, hstar]
  | cons x xs ih =>
    -- The character after `x` is the next one of `xs`, or `c`, which is no slash.
    have hhead : (xs ++ c :: ys).head? = some '/' ↔ xs.head? = some '/' := by
      cases xs <;> simp [hslash]
    simp only [List.cons_append, countEnds, ih, hhead, Nat.add_assoc]

theorem countEnds_eq_zero {cs : List Char} (h : '*' ∉ cs) : countEnds cs = 0 := by
  induction cs with
  | nil => rfl
  | cons c cs ih =>
    rw [List.mem_cons, not_or] at h
    have hstar : c ≠ '*' := fun hc => h.1 hc.symm
    simp [countEnds, hstar, ih h.2]

/-- Escaping changes no first character. -/
theorem head?_escapeCommentEnds (cs : List Char) : (escapeCommentEnds cs).head? = cs.head? := by
  fun_cases escapeCommentEnds cs <;> rfl

/-- **Escaped text ends no comment.** What is put between a star and a slash leaves no other star
before a slash. -/
theorem countEnds_escapeCommentEnds (cs : List Char) : countEnds (escapeCommentEnds cs) = 0 := by
  fun_induction escapeCommentEnds cs with
  | case1 rest ih => simp [countEnds, ih]
  | case2 c rest hpair ih =>
    have hno : ¬(c = '*' ∧ (escapeCommentEnds rest).head? = some '/') := by
      rintro ⟨rfl, hhead⟩
      -- Then a slash came after the star already, and the first case would have applied.
      rw [head?_escapeCommentEnds] at hhead
      obtain ⟨tail, rfl⟩ := List.head?_eq_some_iff.1 hhead
      exact hpair tail rfl rfl
    rw [countEnds, if_neg hno, ih]
  | case3 => rfl

/-! ### Texts -/

theorem commentEnds_append_space (s s' : String) :
    commentEnds (s ++ " " ++ s') = commentEnds s + commentEnds s' := by
  have hchars : (s ++ " " ++ s').toList = s.toList ++ ' ' :: s'.toList := by simp
  rw [commentEnds, hchars, countEnds_append_cons (by decide) (by decide)]
  rfl

/-- A first word that ends nothing can be left out. -/
theorem commentEnds_after_word {word : String} (hword : commentEnds word = 0) (s : String) :
    commentEnds (word ++ " " ++ s) = commentEnds s := by
  rw [commentEnds_append_space, hword, Nat.zero_add]

theorem commentEnds_commentText (s : String) : commentEnds (commentText s) = 0 := by
  rw [commentEnds, commentText, String.toList_ofList]
  exact countEnds_escapeCommentEnds s.toList

/-- Lines that are joined end comments as often as all of them together. -/
theorem commentEnds_intercalate (lines : List String) :
    commentEnds ("\n".intercalate lines) = (lines.map commentEnds).sum := by
  induction lines with
  | nil => rfl
  | cons line lines ih =>
    cases lines with
    | nil => simp
    | cons next lines =>
      have hchars : ("\n".intercalate (line :: next :: lines)).toList =
          line.toList ++ '\n' :: ("\n".intercalate (next :: lines)).toList := by
        rw [String.intercalate_cons_cons]
        simp
      rw [commentEnds, hchars, countEnds_append_cons (by decide) (by decide), List.map_cons,
        List.sum_cons, ← ih]
      rfl

/-! ### Comments -/

namespace Doc

variable {d : Doc}

/-- A comment as one text. -/
def text (d : Doc) : String :=
  "\n".intercalate d.lines

theorem commentEnds_framedLine (line : String) :
    commentEnds (framedLine line) = commentEnds line := by
  unfold framedLine
  split
  · next hempty =>
    rw [hempty]
    rfl
  · have hspace : " * " ++ line = " *" ++ " " ++ line := rfl
    rw [hspace, commentEnds_after_word rfl]

/-- A comment is laid out on one line, or framed. -/
theorem lines_cases (h : d.lines ≠ []) :
    (∃ only, d.body = [only] ∧ d.lines = ["/** " ++ only ++ " */"]) ∨
      d.lines = "/**" :: (d.body.map framedLine ++ [" */"]) := by
  unfold lines at h ⊢
  cases hbody : d.body with
  | nil =>
    rw [hbody] at h
    exact absurd rfl h
  | cons line rest =>
    cases rest with
    | nil => exact .inl ⟨line, rfl, rfl⟩
    | cons next rest => exact .inr rfl

/-- **The ends in a comment** are those in the lines of its body, and its own. -/
theorem commentEnds_text (h : d.lines ≠ []) :
    commentEnds d.text = (d.body.map commentEnds).sum + 1 := by
  have hopen : commentEnds "/**" = 0 := rfl
  rcases lines_cases h with ⟨only, hbody, hlines⟩ | hlines
  · have hspaces : "/** " ++ only ++ " */" = "/**" ++ " " ++ (only ++ " " ++ "*/") := by
      simp [← String.toList_inj]
    have hclose : commentEnds "*/" = 1 := rfl
    rw [text, hlines, hbody, String.intercalate_singleton, hspaces, commentEnds_after_word hopen,
      commentEnds_append_space, hclose]
    simp
  · have hlast : commentEnds " */" = 1 := rfl
    have hframed : d.body.map (commentEnds ∘ framedLine) = d.body.map commentEnds :=
      List.map_congr_left fun line _ => commentEnds_framedLine line
    rw [text, hlines, commentEnds_intercalate, List.map_cons, List.map_append, List.map_map, hframed]
    simp [hopen, hlast]

/-- A comment opens as one, and ends as one. -/
theorem text_delimited (h : d.lines ≠ []) :
    (∃ rest, d.text = "/**" ++ rest) ∧ ∃ front, d.text = front ++ "*/" := by
  unfold text
  rcases lines_cases h with ⟨only, -, hlines⟩ | hlines
  · rw [hlines, String.intercalate_singleton]
    refine ⟨⟨" " ++ only ++ " */", ?_⟩, "/** " ++ only ++ " ", ?_⟩ <;> simp [← String.toList_inj]
  · have hne : d.body.map framedLine ++ [" */"] ≠ [] := by simp
    rw [hlines]
    constructor
    · rw [String.intercalate_cons_of_ne_nil hne, String.append_assoc]
      exact ⟨_, rfl⟩
    · rw [← List.cons_append, String.intercalate_append_of_ne_nil (by simp) (by simp),
        String.intercalate_singleton]
      refine ⟨"\n".intercalate ("/**" :: d.body.map framedLine) ++ "\n" ++ " ", ?_⟩
      simp [← String.toList_inj]

/-! ### The lines of a comment -/

theorem commentEnds_of_mem_descriptionLines {line : String} (h : line ∈ d.descriptionLines) :
    commentEnds line = 0 := by
  unfold descriptionLines at h
  split at h
  · cases h
  · obtain ⟨part, -, rfl⟩ := List.mem_map.1 h
    exact commentEnds_commentText _

theorem commentEnds_of_mem_fixedTagLines (hparams : ∀ p ∈ d.params, commentEnds p.1 = 0)
    {line : String} (h : line ∈ d.fixedTagLines) : commentEnds line = 0 := by
  unfold fixedTagLines at h
  rcases List.mem_append.1 h with h | h
  · rcases List.mem_append.1 h with h | h
    · obtain ⟨p, hp, rfl⟩ := List.mem_map.1 h
      have hspaces : "@param " ++ p.1 ++ " " ++ commentText (trim p.2) =
          "@param" ++ " " ++ (p.1 ++ " " ++ commentText (trim p.2)) := by
        simp [← String.toList_inj]
      rw [hspaces, commentEnds_after_word rfl, commentEnds_after_word (hparams p hp),
        commentEnds_commentText]
    · obtain ⟨part, -, rfl⟩ := List.mem_map.1 h
      have hspace : "@returns " ++ commentText part = "@returns" ++ " " ++ commentText part := rfl
      rw [hspace, commentEnds_after_word rfl, commentEnds_commentText]
  · obtain ⟨part, -, rfl⟩ := List.mem_map.1 h
    split
    · rfl
    · next text _ =>
      have hspace : "@deprecated " ++ commentText text =
          "@deprecated" ++ " " ++ commentText text := rfl
      rw [hspace, commentEnds_after_word rfl, commentEnds_commentText]

/-- A tag is left out only if its line is there already. -/
theorem mem_tagLines_iff {line : String} :
    line ∈ d.tagLines ↔ line ∈ d.fixedTagLines ∨ ∃ tag ∈ d.tags, tag.text = line := by
  have htexts : d.tagLines = (d.tags.map Tag.text).foldl
      (fun lines text => if lines.contains text then lines else lines ++ [text])
      d.fixedTagLines := by
    rw [tagLines, List.foldl_map]
  rw [htexts, mem_foldl_once, List.mem_map]

/-- The body holds the description, the tags and at most an empty line. -/
theorem forall_mem_body_iff {P : String → Prop} (hempty : P "") :
    (∀ line ∈ d.body, P line) ↔
      (∀ line ∈ d.descriptionLines, P line) ∧ ∀ line ∈ d.tagLines, P line := by
  unfold body
  dsimp only
  split
  · exact List.forall_mem_append
  · rw [List.forall_mem_append, List.forall_mem_cons]
    exact and_congr_right fun _ => and_iff_right hempty

/-- Only tags can end a comment early. -/
theorem commentEnds_text_eq_one_iff (h : d.lines ≠ [])
    (hparams : ∀ p ∈ d.params, commentEnds p.1 = 0) :
    commentEnds d.text = 1 ↔ ∀ tag ∈ d.tags, commentEnds tag.text = 0 := by
  rw [commentEnds_text h, Nat.add_eq_right, List.sum_eq_zero_iff_forall_eq_nat, List.forall_mem_map,
    forall_mem_body_iff (P := fun line => commentEnds line = 0) rfl]
  constructor
  · rintro ⟨-, htags⟩ tag htag
    exact htags _ (mem_tagLines_iff.2 (.inr ⟨tag, htag, rfl⟩))
  · intro htags
    refine ⟨fun line hline => commentEnds_of_mem_descriptionLines hline, fun line hline => ?_⟩
    rcases mem_tagLines_iff.1 hline with hfixed | ⟨tag, htag, rfl⟩
    · exact commentEnds_of_mem_fixedTagLines hparams hfixed
    · exact htags tag htag

end Doc

/-! ### Tags of a feature -/

/-- The names that the tags of a feature tell: permissions, manifest keys, platforms and the location.
-/
def AvailabilityDiff.names (d : AvailabilityDiff) : List String :=
  d.permissions.elim [] NameSet.toList ++ d.manifestKeys.elim [] NameSet.toList
    ++ (d.platforms.bind AllowSet.items?).getD [] ++ d.location.toList

theorem commentEnds_tag {name : String} (hname : '*' ∉ name.toList) (value : String) :
    commentEnds (Tag.text ⟨name, some value⟩) = commentEnds value := by
  have hword : commentEnds ("@" ++ name) = 0 := countEnds_eq_zero (by simp [hname])
  show commentEnds ("@" ++ name ++ " " ++ value) = commentEnds value
  exact commentEnds_after_word hword value

theorem commentEnds_flag {name : String} (hname : '*' ∉ name.toList) :
    commentEnds (Tag.text ⟨name, none⟩) = 0 :=
  countEnds_eq_zero (by simp [Tag.text, hname])

theorem commentEnds_noServiceWorkersTag : commentEnds noServiceWorkersTag.text = 0 :=
  rfl

theorem star_not_mem_toDigits (n : ℕ) : '*' ∉ Nat.toDigits 10 n := fun h =>
  absurd (Nat.isDigit_of_mem_toDigits (by decide) (by decide) h) (by decide)

theorem commentEnds_releaseText (n : ℕ) : commentEnds (releaseText n) = 0 :=
  countEnds_eq_zero (by simp [releaseText, star_not_mem_toDigits])

theorem commentEnds_manifestText (n : ℕ) : commentEnds (manifestText n) = 0 :=
  countEnds_eq_zero (by simp [manifestText, star_not_mem_toDigits])

theorem commentEnds_since (s : Since) : commentEnds s.text = 0 := by
  cases s with
  | version n => exact commentEnds_releaseText n
  | pending => rfl

/-- Tags that tell texts end comments as the texts do. -/
theorem forall_commentEnds_tag {name : String} (hname : '*' ∉ name.toList) (values : List String) :
    (∀ tag ∈ values.map fun value => Tag.mk name (some value), commentEnds tag.text = 0) ↔
      ∀ value ∈ values, commentEnds value = 0 := by
  rw [List.forall_mem_map]
  simp only [commentEnds_tag hname]

/-- Of the tags of a feature those with names can end a comment, and only by the name. -/
theorem AvailabilityDiff.commentEnds_tags_iff (d : AvailabilityDiff) :
    (∀ tag ∈ d.tags, commentEnds tag.text = 0) ↔ ∀ name ∈ d.names, commentEnds name = 0 := by
  -- Channels, versions and the note on service workers tell no name, so their tags end nothing.
  have hchannel : ∀ tag ∈ (d.channel.bind Channel.docTag?).toList.map fun name => Tag.mk name none,
      commentEnds tag.text = 0 := by
    rw [List.forall_mem_map]
    intro name hname
    refine commentEnds_flag ?_
    obtain ⟨channel, -, hdoc⟩ := Option.bind_eq_some_iff.1 (Option.mem_toList.1 hname)
    cases channel <;> cases hdoc <;> decide
  have hworkers : ∀ tag ∈ if d.disallowForServiceWorkers = some true
      then [noServiceWorkersTag] else [], commentEnds tag.text = 0 := by
    split
    · exact List.forall_mem_singleton.2 commentEnds_noServiceWorkersTag
    · exact List.forall_mem_nil _
  have hmin : ∀ value ∈ d.minManifestVersion.toList.map manifestText, commentEnds value = 0 := by
    simp [commentEnds_manifestText]
  have hmax : ∀ value ∈ d.maxManifestVersion.toList.map manifestText, commentEnds value = 0 := by
    simp [commentEnds_manifestText]
  have hsince : ∀ value ∈ d.since.toList.map Since.text, commentEnds value = 0 := by
    simp [commentEnds_since]
  have hdeprecated : ∀ value ∈ d.deprecatedSince.toList.map releaseText, commentEnds value = 0 := by
    simp [commentEnds_releaseText]
  unfold AvailabilityDiff.tags AvailabilityDiff.names
  simp only [List.flatten_cons, List.flatten_nil, List.append_nil, List.forall_mem_append]
  iterate 8 rw [forall_commentEnds_tag (by decide)]
  constructor
  · rintro ⟨-, hpermissions, hkeys, -, -, hplatforms, hlocation, -⟩
    exact ⟨⟨⟨hpermissions, hkeys⟩, hplatforms⟩, hlocation⟩
  · rintro ⟨⟨⟨hpermissions, hkeys⟩, hplatforms⟩, hlocation⟩
    exact ⟨hchannel, hpermissions, hkeys, hmin, hmax, hplatforms, hlocation, hworkers, hsince,
      hdeprecated⟩

/-! ### Comments of the renderer -/

theorem commentEnds_parameterName (name : String) : commentEnds (parameterName name) = 0 := by
  have hstar : '*' ∉ (parameterName name).toList := by
    intro hmem
    exact absurd (isIdentifierRest_of_mem_parameterName name '*' hmem) (by decide)
  exact countEnds_eq_zero hstar

theorem commentEnds_of_mem_extraTags {t : ApiType} {path : String} {tag : Tag}
    (h : tag ∈ extraTags t path) : commentEnds tag.text = 0 := by
  unfold extraTags at h
  split at h
  · rw [List.mem_singleton.1 h]
    exact commentEnds_noServiceWorkersTag
  · cases h

namespace Doc

/-- A comment as it is made for something with these availabilities. Its texts can be any. -/
structure Rendered (d : Doc) (feature : AvailabilityDiff) : Prop where
  params : ∀ p ∈ d.params, ∃ name, p.1 = parameterName name
  tags : ∃ t path, d.tags = feature.tags ++ extraTags t path

/-- The comment of a property is one. -/
theorem rendered_traits (p : Traits) (t : ApiType) (path : String) :
    (p.doc t path).Rendered p.feature where
  params p hp := by cases hp
  tags := ⟨t, path, rfl⟩

/-- So is the comment of an overload. -/
theorem Rendered.signature {τ : Type} {d : Doc} {feature : AvailabilityDiff} (hd : d.Rendered feature)
    (s : Signature τ) : (s.doc d).Rendered feature where
  params p hp := by
    obtain ⟨parameter, -, hsome⟩ := List.mem_filterMap.1 hp
    obtain ⟨text, -, rfl⟩ := Option.map_eq_some_iff.1 hsome
    exact ⟨parameter.name, rfl⟩
  tags := hd.tags

/-- So is the comment of a namespace. -/
theorem rendered_namespace (ns : Namespace) :
    Doc.Rendered { description := ns.description, deprecated := ns.deprecated, tags := ns.feature.tags }
      ns.feature where
  params p hp := by cases hp
  -- No tag is added, as for a type that is no function.
  tags := ⟨.primitive .any, "", (List.append_nil _).symm⟩

/-- **Where a comment ends.** A comment opens and ends as one. It ends nowhere before, whatever texts
it is made of, if and only if no name in the tags of the feature ends it. -/
theorem closes_iff {d : Doc} {feature : AvailabilityDiff} (hd : d.Rendered feature)
    (hne : d.lines ≠ []) :
    (∃ rest, d.text = "/**" ++ rest) ∧ (∃ front, d.text = front ++ "*/") ∧
      (commentEnds d.text = 1 ↔ ∀ name ∈ feature.names, commentEnds name = 0) := by
  obtain ⟨hopens, hends⟩ := text_delimited hne
  refine ⟨hopens, hends, ?_⟩
  have hparams : ∀ p ∈ d.params, commentEnds p.1 = 0 := by
    intro p hp
    obtain ⟨name, hname⟩ := hd.params p hp
    rw [hname]
    exact commentEnds_parameterName name
  obtain ⟨t, path, htags⟩ := hd.tags
  rw [commentEnds_text_eq_one_iff hne hparams, htags, List.forall_mem_append,
    AvailabilityDiff.commentEnds_tags_iff]
  exact and_iff_left fun tag htag => commentEnds_of_mem_extraTags htag

/-- The end of a comment wherever a text can have one. -/
def quotingEnds : Doc where
  description := some "See */ here\n*/"
  params := [(parameterName "*/", "Any **/")]
  returns := some "*/"
  deprecated := some "Use */ instead"
  tags := AvailabilityDiff.tags { location := some "policy" }

theorem quotingEnds_closes :
    quotingEnds.Rendered { location := some "policy" } ∧ quotingEnds.lines ≠ [] ∧
      commentEnds quotingEnds.text = 1 := by
  have hrendered : quotingEnds.Rendered { location := some "policy" } :=
    ⟨fun p hp => ⟨"*/", congrArg Prod.fst (List.mem_singleton.1 hp)⟩, .primitive .any, "", rfl⟩
  have hne : quotingEnds.lines ≠ [] := by decide
  exact ⟨hrendered, hne, (closes_iff hrendered hne).2.2.2 (by decide)⟩

/-- A feature for a permission that ends a comment. -/
def endingPermission : AvailabilityDiff where
  permissions := some (NameSet.ofList ["*/"])

/-- The comment of a property that has it. -/
def endingDoc : Doc :=
  Traits.doc { feature := endingPermission } (.primitive .string) "a.b"

/-- The end of a comment in the name of a permission is left as it is. -/
theorem endingDoc_ends_twice :
    endingDoc.Rendered endingPermission ∧ endingDoc.text = "/** @chrome-permission */ */" ∧
      commentEnds endingDoc.text = 2 :=
  ⟨rendered_traits _ _ _, by decide, by decide⟩

end Doc

end ApiTypings
