import ApiTypings.Feature.Channel
import ApiTypings.Feature.Error
import ApiTypings.Text.Dotted
/-!
# Release history

A history records for dotted paths the first stable release and the release of deprecation. A symbol
that it does not record takes the entry of its nearest recorded ancestor.

**Reading.** A history text is an object from paths to entries. On a repeated path the last entry
counts, but a repeated field inside one entry is an error. Fields that an entry does not have are
skipped unread, so nothing about their values is checked but the grammar.
-/

namespace ApiTypings

/-- The first release of a symbol. -/
inductive Since
  /-- Recorded or recordable, but not stable yet. -/
  | pending
  | version (number : Nat)
  deriving DecidableEq, Repr, Inhabited

/-- What a history records for one path. -/
structure HistoryEntry where
  channel : Option Channel := none
  deprecatedAt : Option Nat := none
  firstStable : Option Nat := none
  deriving DecidableEq, Repr, Inhabited

/-- The first release by an entry. Only what is on the stable channel has one. -/
def HistoryEntry.since (e : HistoryEntry) : Since :=
  match e.channel.getD .stable, e.firstStable with
  | .stable, some number => .version number
  | _, _ => .pending

/-- A history: the entries of dotted paths, each path once. -/
structure History where
  entries : List (String × HistoryEntry) := []
  deriving Repr, Inhabited

namespace History

/-- The history with an entry for a path, in place of the one it had. -/
def insert (h : History) (path : String) (e : HistoryEntry) : History :=
  ⟨Json.setMember path e h.entries⟩

/-- The entry of exactly this path. -/
def get? (h : History) (path : String) : Option HistoryEntry :=
  h.entries.lookup path

/-- The entry of the nearest recorded ancestor of a path, itself included. -/
def nearest? (h : History) (path : String) : Option HistoryEntry :=
  (ancestors path).findSome? h.get?

/-- How many paths are recorded. -/
def size (h : History) : Nat :=
  h.entries.length

/-- Whether no path is recorded. -/
def isEmpty (h : History) : Bool :=
  h.entries.isEmpty

/-! ### Reading -/

/-- The keys of an entry, in their order. -/
def keys : List String := ["channel", "deprecatedAtVersion", "firstStableVersion"]

/-- The value of a field of an entry. No field takes an object of several members. -/
def fieldValue? : Json.Written → Option Json.Value
  | .object (_ :: _ :: _) => none
  | w => w.value? Json.maxDepth

/-- The known fields of an entry; a key may not be repeated, and every key has to be a string. -/
def fields? : List (List Json.Piece × Json.Written) → List (String × Json.Value) →
    Option (List (String × Json.Value))
  | [], known => some known
  | (key, w) :: rest, known => do
    let key ← Json.stringOfPieces? key
    if keys.contains key then
      if (known.lookup key).isSome then none
      else fields? rest ((key, ← fieldValue? w) :: known)
    else fields? rest known

open Json Json.Reader in
/-- The entry that an object or an array of fields writes. -/
def entry? (w : Written) : Option HistoryEntry := do
  let fields ← match w with
    | .object members => fields? members []
    | .array items =>
      if items.length ≤ keys.length then (items.mapM fieldValue?).map keys.zip else none
    | _ => none
  return {
    channel := ← field? fields "channel" Channel.read
    deprecatedAt := ← field? fields "deprecatedAtVersion" nat32
    firstStable := ← field? fields "firstStableVersion" nat32 }

/-- The entries that the members of an object write, added to a history. -/
def ofMembers? : List (List Json.Piece × Json.Written) → History → Option History
  | [], h => some h
  | (path, w) :: rest, h => do
    let path ← Json.stringOfPieces? path
    let e ← entry? w
    ofMembers? rest (h.insert path e)

/-- The history that a text writes. -/
def ofText (text : String) : Except FeatureError History :=
  let history? := match Json.Written.ofText? text with
    | some (.object members) => ofMembers? members {}
    | _ => none
  match history? with
  | some h => .ok h
  | none => .error (.malformed "history" .json)

end History

end ApiTypings
