import ApiTypings.Feature.Merge
import ApiTypings.Feature.Table
/-!
# The dependencies of a feature

What a feature needs is found in three steps.

* `resolve?` gives an id its one definition: merged from its variants, and with unset fields taken
  from the nearest dotted ancestor that is defined, which has itself inherited from its own.
* `Closure.collect` gathers everything that can be reached from an id along resolved dependencies,
  breadth first and each id once.
* `Closure.checkAcyclic` goes through what was gathered depth first and refuses any cycle, by
  whichever way its members were reached first.

Ids without definition are gathered too. They have no dependencies; what they mean for availability
is not decided here.
-/

namespace ApiTypings

/-! ### One definition for an id -/

namespace FeatureTable

/-- The definition that descendants of an id inherit from: the only variant, or the variant marked
as default parent, or the merged variants. -/
def parentVariant (id path : String) (variants : List Definition) : Except FeatureError Definition :=
  match variants with
  | [only] => .ok only
  | variants =>
    match variants.find? (·.isDefaultParent) with
    | some marked => .ok marked
    | none => Definition.merge id path variants

/-- The definition of the first defined id of a list of ancestors, nearest first, with unset fields
taken from the ancestors after it. -/
def inherited? (t : FeatureTable) (path : String) :
    List String → Except FeatureError (Option Definition)
  | [] => .ok none
  | id :: rest =>
    match t.variants id with
    | [] => inherited? t path rest
    | variants => do
      let selected ← parentVariant id path variants
      if selected.isNoParent then return some selected
      match ← inherited? t path rest with
      | none => return some selected
      | some parent => return some (selected.inheritFrom parent)

/-- The one definition of an id, or `none` if it is not defined. -/
def resolve? (t : FeatureTable) (path id : String) : Except FeatureError (Option Definition) :=
  match t.variants id with
  | [] => .ok none
  | variants => do
    let merged ← Definition.merge id path variants
    if merged.isNoParent then return some merged
    match ← t.inherited? path (strictAncestors id) with
    | none => return some merged
    | some parent => return some (merged.inheritFrom parent)

end FeatureTable

/-! ### Everything that is reached -/

/-- How many ids a closure may hold. Real features reach fewer than a dozen. -/
def maxClosure : Nat := 1024

/-- Ids with their resolved definitions, in the order in which they were reached. -/
structure Closure where
  nodes : List (String × Option Definition) := []
  deriving Repr, Inhabited

namespace Closure

/-- The ids in the order in which they were reached. -/
def order (c : Closure) : List String :=
  c.nodes.map (·.1)

/-- The definition of an id of the closure. -/
def definition? (c : Closure) (id : String) : Option Definition :=
  (c.nodes.lookup id).join

/-- The dependencies of an id of the closure. -/
def dependencies (c : Closure) (id : String) : List String :=
  match c.definition? id with
  | some d => d.dependencyIds
  | none => []

/-- Whether an id was reached. -/
def contains (c : Closure) (id : String) : Bool :=
  (c.nodes.lookup id).isSome

/-- The closure with one more id. -/
def push (c : Closure) (id : String) (d : Option Definition) : Closure :=
  ⟨c.nodes ++ [(id, d)]⟩

/-- Goes on with a queue of ids: an id that was reached before is passed over, any other is resolved
and its dependencies are queued. With room for no more ids the queue is taken for an endless one. -/
def extend (t : FeatureTable) (path : String) :
    (room : Nat) → List String → Closure → Except FeatureError Closure
  | room, queue, c =>
    match queue.dropWhile c.contains with
    | [] => .ok c
    | id :: rest =>
      match room with
      | 0 => .error (.cycle (c.order ++ [id]))
      | room + 1 => do
        let d ← t.resolve? path id
        extend t path room (rest ++ (d.elim [] Definition.dependencyIds)) (c.push id d)

/-- Everything that is reached from an id, the id first. -/
def collect (t : FeatureTable) (path root : String) : Except FeatureError Closure :=
  extend t path maxClosure [root] {}

/-! ### Cycles -/

/-- The cycle that closes when `id` is met again below itself. `above` is what was entered and not
left, innermost first. -/
def cycleAt (above : List String) (id : String) : List String :=
  id :: ((above.takeWhile (· ≠ id)).reverse ++ [id])

/-- Enters an id, depth first. `above` is what was entered and not left, `seen` what was ever
entered; the answer is what has been seen afterwards. No id is entered twice, so `fuel` bounds the
depth. -/
def visit (c : Closure) : (fuel : Nat) → (above seen : List String) → (id : String) →
    Except FeatureError (List String)
  | fuel, above, seen, id =>
    if above.contains id then .error (.cycle (cycleAt above id))
    else if seen.contains id then .ok seen
    else
      match fuel with
      | 0 => .ok seen
      | fuel + 1 => (c.dependencies id).foldlM (c.visit fuel (id :: above)) (id :: seen)

/-- Fails if a cycle can be reached from `root`. -/
def checkAcyclic (c : Closure) (root : String) : Except FeatureError Unit :=
  (c.visit (c.nodes.length + 1) [] [] root).map fun _ => ()

end Closure

end ApiTypings
