import ApiTypings.Json.Fields
/-!
# Release channels

A feature is released to a channel and with it to all channels beyond. The channels are ordered from
the one with the most users to the one with the fewest; the order is the order of restriction, so
the more restrictive of two channels is the greater one.
-/

namespace ApiTypings

/-- A release channel, from the least to the most restrictive. -/
inductive Channel
  | stable
  | beta
  | dev
  | canary
  | trunk
  deriving DecidableEq, Repr, Inhabited

namespace Channel

/-- All channels in their order. -/
def all : List Channel := [stable, beta, dev, canary, trunk]

/-- The place of a channel in the order of restriction. -/
def rank : Channel → Nat
  | stable => 0
  | beta => 1
  | dev => 2
  | canary => 3
  | trunk => 4

/-- A channel is determined by its place. -/
theorem rank_injective {a b : Channel} (h : a.rank = b.rank) : a = b := by
  cases a <;> cases b <;> simp_all [rank]

instance : LE Channel := ⟨fun a b => a.rank ≤ b.rank⟩

instance : LT Channel := ⟨fun a b => a.rank < b.rank⟩

instance (a b : Channel) : Decidable (a ≤ b) := inferInstanceAs (Decidable (a.rank ≤ b.rank))

instance (a b : Channel) : Decidable (a < b) := inferInstanceAs (Decidable (a.rank < b.rank))

/-- The channel of the two that has fewer users. -/
def mostRestrictive (a b : Channel) : Channel :=
  if a ≤ b then b else a

/-- The channel of the two that has more users. -/
def leastRestrictive (a b : Channel) : Channel :=
  if a ≤ b then a else b

/-- The more restrictive channel is the one that is later in the order. -/
theorem rank_mostRestrictive (a b : Channel) :
    (mostRestrictive a b).rank = max a.rank b.rank := by
  cases a <;> cases b <;> rfl

/-- The less restrictive channel is the one that is earlier in the order. -/
theorem rank_leastRestrictive (a b : Channel) :
    (leastRestrictive a b).rank = min a.rank b.rank := by
  cases a <;> cases b <;> rfl

/-- The name of a channel. -/
def name : Channel → String
  | stable => "stable"
  | beta => "beta"
  | dev => "dev"
  | canary => "canary"
  | trunk => "trunk"

/-- The channel of a name. -/
def ofName? (name : String) : Option Channel :=
  all.find? (·.name = name)

/-- What is said about a name that no channel has. -/
def unknownMessage (name : String) : String :=
  "unknown channel `" ++ name ++ "`"

/-- The documentation tag of a channel; what is stable needs none. -/
def docTag? : Channel → Option String
  | stable => none
  | beta => some "beta"
  | dev | canary | trunk => some "alpha"

/-- Reads a channel: its name, or an object with its name as only key and `null` as value. -/
def read : Json.Reader Channel
  | .string s => ofName? s
  | .object [(s, .null)] => ofName? s
  | _ => none

end Channel

end ApiTypings
