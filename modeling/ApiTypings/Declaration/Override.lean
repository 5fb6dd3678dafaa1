import ApiTypings.Schema.Model
import ApiTypings.Text.Dotted
import ApiTypings.Declaration.Comment
/-!
# What the schema cannot say

A few types need more than the schema has to say about them: template parameters on shared generic
types, `any` where a template parameter is meant, references into internal namespaces, and types of
the host that have another name in the declaration language. The tables of this file add what is
missing.

`Replacement.find?` looks up what to do with a type at a path, `Replacement.apply` does it.
-/

namespace ApiTypings

/-! ### Generic types -/

/-- The generic types of the schema with their template parameters. -/
def objectTemplates : List (String × String) :=
  [(ApiType.eventName, "H extends (...args: any) => void, C = void, A = void"),
    ("types.ChromeSetting", "T"),
    ("contentSettings.ContentSetting", "T")]

/-- The template parameters of the type declared at a path. -/
def objectTemplatesFor? (path : String) : Option String :=
  objectTemplates.lookup path

/-- The generic type that a name refers to at a path. Inside the namespace that declares it the
namespace may be left out. -/
def templatedTarget? (name path : String) : Option String :=
  (objectTemplates.map (·.1)).find? fun target =>
    target = name || localName? (firstSegment path) target = some name

/-! ### Positions of template parameters -/

/-- Positions inside a generic type where a template parameter stands for the type. -/
structure GenericSlot where
  /-- The paths start with this; without a `leaf` it is the only path. -/
  within : String
  /-- The last segment of the paths. -/
  leaf : Option String
  parameter : String
  /-- Only `any` gives way to the parameter. -/
  onlyAny : Bool

/-- All such positions. -/
def genericSlots : List GenericSlot :=
  [⟨"events.Event.addListener.callback", none, "H", false⟩,
    ⟨"events.Event.removeListener.callback", none, "H", false⟩,
    ⟨"events.Event.hasListener.callback", none, "H", false⟩,
    ⟨"types.ChromeSetting.", some "value", "T", true⟩,
    ⟨"contentSettings.ContentSetting.", some "setting", "T", true⟩]

namespace GenericSlot

/-- Whether a path is one of the positions. -/
def covers (slot : GenericSlot) (path : String) : Bool :=
  match slot.leaf with
  | none => path = slot.within
  | some leaf => (afterPrefix? slot.within path).isSome && leaf? path = some leaf

/-- Whether a type is the parameter already. -/
def isFilled (slot : GenericSlot) : ApiType → Bool
  | .reference target _ => target.generic && target.name = slot.parameter
  | _ => false

/-- Whether the parameter takes the place of a type at a path. -/
def applies (slot : GenericSlot) (path : String) (t : ApiType) : Bool :=
  slot.covers path && !slot.isFilled t && (!slot.onlyAny || t.isAny)

end GenericSlot

/-! ### Names -/

/-- References into internal namespaces: where they stand, what they name and what they should name.
-/
def referenceRepairs : List (String × String × String) :=
  [("contextMenus.onClicked.info", "contextMenusInternal.OnClickData", "contextMenus.OnClickData")]

/-- The names of host types in the schema and in the declaration language. -/
def hostNames : List (String × String) :=
  [("DirectoryEntry", "FileSystemDirectoryEntry"),
    ("FileEntry", "FileSystemFileEntry"),
    ("Entry", "FileSystemEntry"),
    ("DOMWindow", "Window"),
    ("global", "typeof globalThis")]

/-- The name of a host type in the declaration language, if it is another one. -/
def hostName? (name : String) : Option String :=
  hostNames.lookup name

/-- The name that a reference at a path should have instead of its own. -/
def repairedName? (path name : String) : Option String :=
  (referenceRepairs.find? fun r => r.1 = path && r.2.1 = name).map (·.2.2)

/-! ### Replacements -/

/-- What is to be done with a type. -/
inductive Replacement
  /-- Put a template parameter in its place. -/
  | parameter (name : String)
  /-- Apply it to `any`. -/
  | applyToAny
  /-- Give it another name. -/
  | rename (name : String)
  deriving DecidableEq, Repr

namespace Replacement

/-- What is to be done with a reference. -/
def ofReference? (path : String) (target : Reference) (arguments : List ApiType) :
    Option Replacement :=
  if arguments.isEmpty && !target.generic && (templatedTarget? target.name path).isSome then
    some applyToAny
  else
    match repairedName? path target.name with
    | some name => some (rename name)
    | none => if target.external then (hostName? target.name).map rename else none

/-- What is to be done with a type at a path, if anything. -/
def find? (path : String) (t : ApiType) : Option Replacement :=
  match genericSlots.find? (·.applies path t) with
  | some slot => some (parameter slot.parameter)
  | none =>
    match t with
    | .reference target arguments => ofReference? path target arguments
    | _ => none

/-- The type after the replacement. -/
def apply : Replacement → ApiType → ApiType
  | parameter name, _ => .templateParameter name
  | applyToAny, .reference target _ => .reference target [.any]
  | rename name, .reference target arguments => .reference { target with name := name } arguments
  | _, t => t

end Replacement

/-- The type that takes the place of a type at a path, if one does. -/
def typeOverride? (path : String) (t : ApiType) : Option ApiType :=
  (Replacement.find? path t).map (·.apply t)

/-! ### Tags -/

/-- Functions that do not work in service workers, whatever their feature says. -/
def serviceWorkerDisallowed : List String :=
  ["runtime.getBackgroundPage", "extension.getBackgroundPage", "extension.getViews"]

/-- The tags that the symbol at a path has beside those of its feature. -/
def extraTags (t : ApiType) (path : String) : List Tag :=
  if t.isFunction && serviceWorkerDisallowed.contains path then [noServiceWorkersTag] else []

end ApiTypings
