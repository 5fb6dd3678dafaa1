import ApiTypings.Feature.Availability
import ApiTypings.Text.Blank
/-!
# Documentation comments

A `Doc` is what one comment says: a description, then lines that start with `@`. `Doc.lines` lays it
out, on one line if it has only one and framed otherwise. `AvailabilityDiff.tags` says what is new
in an availability.
-/

namespace ApiTypings

/-! ### Tags -/

/-- One line of a comment that starts with `@`. -/
structure Tag where
  name : String
  value : Option String := none
  deriving DecidableEq, Repr, Inhabited

/-- The text of a tag. -/
def Tag.text (t : Tag) : String :=
  match t.value with
  | some value => "@" ++ t.name ++ " " ++ value
  | none => "@" ++ t.name

/-- A release as documentation names it. -/
def releaseText (number : Nat) : String := "Chrome " ++ toString number

/-- A manifest version as documentation names it. -/
def manifestText (number : Nat) : String := "MV" ++ toString number

/-- The documentation of a first release. -/
def Since.text : Since → String
  | version number => releaseText number
  | pending => "Pending"

/-- The tag for what fails in service workers. -/
def noServiceWorkersTag : Tag := ⟨"chrome-disallow-service-workers", none⟩

/-- One tag for every part of an availability that is new. -/
def AvailabilityDiff.tags (d : AvailabilityDiff) : List Tag :=
  let named (name : String) (values : List String) : List Tag :=
    values.map fun value => ⟨name, some value⟩
  let members (names : Option NameSet) : List String := names.elim [] NameSet.toList
  List.flatten [
    (d.channel.bind Channel.docTag?).toList.map fun name => ⟨name, none⟩,
    named "chrome-permission" (members d.permissions),
    named "chrome-manifest" (members d.manifestKeys),
    named "chrome-min-manifest" (d.minManifestVersion.toList.map manifestText),
    named "chrome-max-manifest" (d.maxManifestVersion.toList.map manifestText),
    named "chrome-platform" ((d.platforms.bind AllowSet.items?).getD []),
    named "chrome-install-location" d.location.toList,
    if d.disallowForServiceWorkers = some true then [noServiceWorkersTag] else [],
    named "since" (d.since.toList.map Since.text),
    named "chrome-deprecated-since" (d.deprecatedSince.toList.map releaseText)]

/-! ### Comments -/

/-- What one comment says. -/
structure Doc where
  description : Option String := none
  /-- Names and descriptions of parameters. -/
  params : List (String × String) := []
  returns : Option String := none
  deprecated : Option String := none
  tags : List Tag := []
  deriving DecidableEq, Repr, Inhabited

/-- Puts a backslash into every end of a comment. -/
def escapeCommentEnds : List Char → List Char
  | '*' :: '/' :: rest => '*' :: '\\' :: '/' :: escapeCommentEnds rest
  | c :: rest => c :: escapeCommentEnds rest
  | [] => []

/-- Free text as it may stand in a comment. -/
def commentText (s : String) : String :=
  String.ofList (escapeCommentEnds s.toList)

/-- A text without blanks at its ends, if anything is left of it. -/
def nonBlank? (s : String) : Option String :=
  if trim s = "" then none else some (trim s)

namespace Doc

/-- The lines of the description. -/
def descriptionLines (d : Doc) : List String :=
  match d.description.bind nonBlank? with
  | none => []
  | some text => (textLines text).map fun line => commentText (trimEnd line)

/-- The lines for parameters, result and deprecation. -/
def fixedTagLines (d : Doc) : List String :=
  d.params.map (fun p => "@param " ++ p.1 ++ " " ++ commentText (trim p.2))
    ++ (d.returns.bind nonBlank?).toList.map (fun text => "@returns " ++ commentText text)
    ++ d.deprecated.toList.map fun text =>
      match nonBlank? text with
      | none => "@deprecated"
      | some text => "@deprecated " ++ commentText text

/-- The lines that start with `@`. A tag that would repeat a line is left out. -/
def tagLines (d : Doc) : List String :=
  d.tags.foldl
    (fun lines tag => if lines.contains tag.text then lines else lines ++ [tag.text])
    d.fixedTagLines

/-- What the comment holds: description and tags, with an empty line between them. -/
def body (d : Doc) : List String :=
  let description := d.descriptionLines
  let tags := d.tagLines
  if description.isEmpty || tags.isEmpty then description ++ tags
  else description ++ "" :: tags

/-- A line of a framed comment. -/
def framedLine (line : String) : String :=
  if line = "" then " *" else " * " ++ line

/-- The lines of the comment; none if there is nothing to say. -/
def lines (d : Doc) : List String :=
  match d.body with
  | [] => []
  | [only] => ["/** " ++ only ++ " */"]
  | body => "/**" :: (body.map framedLine ++ [" */"])

end Doc

end ApiTypings
