import ApiTypings.Proofs.SchemaVisits
import ApiTypings.Proofs.TypeHeights
/-!
# The guard against deep nesting

A node that is read as a type is refused if it lies deeper than `maxNesting`. Main statement
(`NamespaceNode.parse_nesting`): that is enough to bound the work, the visits that are under way at one
time and the height of the types; a namespace in which a node would be read as a type any deeper is
refused, and no other is refused for its nesting.

The guard is not asked where a node is read as a function, an event or a completion callback. In a
namespace that is parsed such nodes can lie deeper, if nothing below them is read as a type
(`parse_deepMethod`).

* `guarded` is the parser of nodes as it counts depths, with a bound on the nodes past the guard that
  may stand one inside the other. There are enough of them (`guarded_eq`).
* `NamespaceNode.Stack` are the visits that are under way, from the innermost one outwards.
-/

namespace ApiTypings

/-! ### Counting depths -/

/-- The guard: nodes at a depth are parsed unless they lie too deep. -/
def unlessTooDeep (depth : Nat) (parse : NodeParser) : NodeParser :=
  if maxNesting < depth then refuseNesting else parse

/-- The parser of the nodes at a depth. Inside a node that passes the guard, further ones do it for at
most so many `calls`; what would happen to one more is left open. -/
def guarded (beyond : NodeParser) : (calls depth : Nat) → NodeParser
  | 0, depth => unlessTooDeep depth beyond
  | calls + 1, depth => unlessTooDeep depth <| parseNode
    ⟨guarded beyond calls (depth + 1), guarded beyond calls (depth + 2),
      guarded beyond calls (depth + 3)⟩

variable {beyond : NodeParser} {calls depth : Nat}

/-- **No node needs more calls** than there are depths left. -/
theorem guarded_eq (h : maxNesting < depth + calls) :
    guarded beyond calls depth = (levels (maxNesting + 1 - depth)).first := by
  induction calls generalizing depth with
  | zero =>
    have hdepth : maxNesting < depth := h
    rw [guarded, unlessTooDeep, if_pos hdepth, Nat.sub_eq_zero_of_le hdepth]
    rfl
  | succ calls ih =>
    rw [guarded, unlessTooDeep]
    by_cases hdepth : maxNesting < depth
    · rw [if_pos hdepth, Nat.sub_eq_zero_of_le hdepth]
      rfl
    · have hle : depth ≤ maxNesting := Nat.not_lt.1 hdepth
      have hsecond : maxNesting + 1 - (depth + 2) = maxNesting - depth - 1 := by omega
      have hthird : maxNesting + 1 - (depth + 3) = maxNesting - depth - 1 - 1 := by omega
      rw [if_neg hdepth, ih (by omega), ih (by omega), ih (by omega), Nat.succ_sub hle,
        Nat.add_sub_add_right, hsecond, hthird, ← levels_second, ← levels_second, ← levels_third]
      rfl

/-- The parsers that a namespace is parsed with. -/
theorem levels_eq_guarded (beyond : NodeParser) : levels maxNesting =
    ⟨guarded beyond maxNesting 1, guarded beyond maxNesting 2, guarded beyond maxNesting 3⟩ := by
  rw [guarded_eq (by decide), guarded_eq (by decide), guarded_eq (by decide)]
  rfl

/-! ### Visits under way -/

namespace NamespaceNode

open Visit

variable {n : NamespaceNode} {v w : Visit} {vs : List Visit}

/-- The visits that are under way while one is made: those that it is inside of, the innermost first.
Only from a visit that is not refused another one is made. -/
inductive Stack (n : NamespaceNode) : Visit → List Visit → Prop
  | start {v : Visit} : n.Starts v → Stack n v []
  | call {v w : Visit} {vs : List Visit} : Stack n v vs → ¬v.Refused → v.Leads w →
    Stack n w (v :: vs)

/-- How many of the visits read a node as a type and pass the guard. -/
def passes (vs : List Visit) : Nat :=
  vs.countP fun v => v.reading = .type ∧ v.depth ≤ maxNesting

theorem passes_cons (v : Visit) (vs : List Visit) :
    passes (v :: vs) = passes vs + if v.reading = .type ∧ v.depth ≤ maxNesting then 1 else 0 := by
  simp only [passes, List.countP_cons, decide_eq_true_eq]

/-- Every visit that passes the guard lies deeper than the one before that does. -/
theorem Stack.passes_le_depth (h : n.Stack v vs) : passes (v :: vs) ≤ v.depth := by
  induction h with
  | start hv =>
    rw [hv.depth_eq]
    exact List.countP_le_length
  | @call v w vs _ _ hlead ih =>
    rw [passes_cons]
    rcases hlead.depth with ⟨hdepth, hreading⟩ | hdepth
    · rw [if_neg fun hw => hreading hw.1]
      omega
    · split <;> omega

/-- **Few of the visits** that are under way have passed the guard. -/
theorem Stack.passes_le (h : n.Stack v vs) : passes (v :: vs) ≤ maxNesting := by
  have hdepth := h.passes_le_depth
  induction h with
  | start hv =>
    rw [hv.depth_eq] at hdepth
    exact Nat.le_trans hdepth (by decide)
  | @call v w vs hstack hv hlead ih =>
    by_cases hw : w.reading = .type ∧ w.depth ≤ maxNesting
    · exact Nat.le_trans hdepth hw.2
    · rw [passes_cons, if_neg hw]
      exact ih hstack.passes_le_depth

theorem Stack.depth_le (h : n.Stack v vs) : v.depth ≤ maxNesting + slack v.reading := by
  induction h with
  | start hv => exact hv.depth_le
  | call _ hv hlead ih => exact hlead.depth_le hv ih

/-- Visits lead upwards on a ladder with two rungs for every depth. -/
def rung (v : Visit) : Nat :=
  2 * v.depth + if v.reading = .type then 0 else 1

theorem rung_lt_of_leads (h : v.Leads w) : rung v < rung w := by
  cases h <;> simp only [rung, reduceCtorEq, if_true, if_false] <;> omega

theorem Stack.length_lt_rung (h : n.Stack v vs) : (v :: vs).length < rung v := by
  induction h with
  | @start v hv =>
    rw [rung, hv.depth_eq, List.length_singleton]
    omega
  | call _ _ hlead ih => exact Nat.lt_of_le_of_lt ih (rung_lt_of_leads hlead)

/-- **Few visits** are under way at one time. -/
theorem Stack.length_le (h : n.Stack v vs) : (v :: vs).length ≤ 2 * maxNesting + 5 := by
  have hlength := h.length_lt_rung
  have hdepth := h.depth_le
  rw [rung] at hlength
  cases hreading : v.reading <;> rw [hreading] at hlength hdepth <;>
    simp only [slack, reduceCtorEq, if_true, if_false] at hlength hdepth <;> omega

/-! ### Main result -/

/-- Where a node is met that is read as a type and lies too deep, parsing fails. -/
theorem exists_error_of_refused (h : ∃ v, n.Meets v ∧ v.Refused) : ∃ e, n.parse = .error e := by
  obtain ⟨v, hv, hrefused⟩ := h
  cases hparse : n.parse with
  | error e => exact ⟨e, rfl⟩
  | ok ns => exact absurd hrefused (hv.not_refused hparse)

/-- What lies too deep in a namespace that is parsed is read as a function, an event or a callback, and
nothing below it is read as a type. -/
theorem Meets.unguarded {ns : Namespace} (hns : n.parse = .ok ns) (h : n.Meets v)
    (hdeep : maxNesting < v.depth) :
    (v.reading = .function ∨ v.reading = .event ∨ v.reading = .callback) ∧
      v.depth ≤ maxNesting + 2 ∧ ∀ w, v.Leads w → w.reading = .callback := by
  have hrefused := h.not_refused hns
  have hdepth := h.depth_le hns
  have hbelow : ∀ w, v.Leads w → w.reading ≠ .type := fun w hlead hw => by
    rcases hlead.depth with ⟨-, hreading⟩ | hwdepth
    · exact hreading hw
    · exact (h.leads hlead).not_refused hns ⟨hw, by omega⟩
  obtain ⟨reading, m, d⟩ := v
  cases reading with
  | type => exact absurd ⟨rfl, hdeep⟩ hrefused
  | object => exact absurd hdepth (Nat.not_le.2 hdeep)
  | function =>
    refine ⟨.inl rfl, Nat.le_succ_of_le hdepth, fun w hlead => ?_⟩
    have hw := hbelow w hlead
    cases hlead with
    | parameter => exact absurd rfl hw
    | result => exact absurd rfl hw
    | callback => rfl
  | event =>
    refine ⟨.inr (.inl rfl), Nat.le_succ_of_le hdepth, fun w hlead => ?_⟩
    have hw := hbelow w hlead
    cases hlead <;> exact absurd rfl hw
  | callback =>
    refine ⟨.inr (.inr rfl), hdepth, fun w hlead => ?_⟩
    have hw := hbelow w hlead
    cases hlead
    exact absurd rfl hw

/-- **The guard bounds parsing**, whatever a namespace is made of. No more than `maxNesting` nodes that
have passed the guard need to be parsed one inside the other, so what would happen beyond them does not
matter, and few visits are under way at one time. Parsing fails if a node is met that is read as a type
and lies too deep, and it names the nesting as the reason only then. In a namespace that is parsed, a
node that lies too deep is a function, an event or a callback of which nothing is read as a type, and
one bound holds for the heights of all types. -/
theorem parse_nesting (n : NamespaceNode) :
    (∀ beyond, levels maxNesting =
      ⟨guarded beyond maxNesting 1, guarded beyond maxNesting 2, guarded beyond maxNesting 3⟩) ∧
    (∀ v vs, n.Stack v vs → passes (v :: vs) ≤ maxNesting ∧ (v :: vs).length ≤ 2 * maxNesting + 5) ∧
    ((∃ v, n.Meets v ∧ v.Refused) → ∃ e, n.parse = .error e) ∧
    (∀ path, n.parse = .error (.unexpectedShape path .nestingTooDeep) →
      ∃ v, n.Meets v ∧ v.Refused) ∧
    ∀ ns, n.parse = .ok ns →
      (∀ v, n.Meets v → maxNesting < v.depth →
        (v.reading = .function ∨ v.reading = .event ∨ v.reading = .callback) ∧
          v.depth ≤ maxNesting + 2 ∧ ∀ w, v.Leads w → w.reading = .callback) ∧
      ∀ p ∈ ns.members, p.type.height ≤ 2 * maxNesting + 3 := by
  refine ⟨levels_eq_guarded, fun v vs h => ⟨h.passes_le, h.length_le⟩, exists_error_of_refused,
    fun path h => exists_refused h, fun ns hns => ⟨fun v hv hdeep => hv.unguarded hns hdeep, ?_⟩⟩
  exact n.height_parse ns hns

/-- A node inside so many arrays. -/
def nestedArrays : Nat → Node → Node
  | 0, n => n
  | k + 1, n => { items := some (nestedArrays k n) }

theorem leads_nestedArrays (m : Node) (k d : Nat) :
    Relation.ReflTransGen Leads ⟨.type, nestedArrays k m, d⟩ ⟨.type, m, d + k⟩ := by
  induction k generalizing d with
  | zero => exact .refl
  | succ k ih =>
    have hrest := ih (d + 1)
    rw [Nat.add_assoc, Nat.add_comm 1 k] at hrest
    exact .head (.element rfl rfl) hrest

/-- A namespace with one property, in which an object lies as deep as it may. -/
def withDeepest (object : Node) : NamespaceNode where
  name := "a"
  properties := [("list", nestedArrays (maxNesting - 1) object)]

theorem meets_deepest (object : Node) : (withDeepest object).Meets ⟨.type, object, maxNesting⟩ :=
  ⟨_, .property (List.mem_singleton_self _), leads_nestedArrays object (maxNesting - 1) 1⟩

/-- The deepest object has a function for a property. -/
def deepProperty : NamespaceNode :=
  withDeepest { kind := some "object", properties := some [("f", { kind := some "function" })] }

/-- The function is refused. -/
theorem parse_deepProperty :
    deepProperty.Meets ⟨.type, { kind := some "function" }, maxNesting + 1⟩ ∧
      ∃ e, deepProperty.parse = .error e := by
  have hmem : ("f", ({ kind := some "function" } : Node)) ∈ Node.ownProperties
      { kind := some "object", properties := some [("f", { kind := some "function" })] } :=
    List.mem_filter.2 ⟨List.mem_singleton_self _, rfl⟩
  have hmeets : deepProperty.Meets ⟨.type, { kind := some "function" }, maxNesting + 1⟩ :=
    ((meets_deepest _).leads (.object rfl)).leads (.property hmem)
  exact ⟨hmeets, (parse_nesting deepProperty).2.2.1 ⟨_, hmeets, rfl, Nat.lt_succ_self _⟩⟩

/-- The deepest object has a function among its functions. -/
def deepMethod : NamespaceNode :=
  withDeepest { kind := some "object", functions := some [{ name := some "f" }] }

/-- **The function gets around the guard**, although it lies as deep as the other one. -/
theorem parse_deepMethod :
    deepMethod.Meets ⟨.function, { name := some "f" }, maxNesting + 1⟩ ∧
      ∃ ns, deepMethod.parse = .ok ns := by
  have hmeets : deepMethod.Meets ⟨.function, { name := some "f" }, maxNesting + 1⟩ :=
    ((meets_deepest _).leads (.object rfl)).leads (.method (List.mem_singleton_self _) rfl)
  have hparse : (deepMethod.parse.map fun _ => ()) = .ok () := by decide +kernel
  obtain ⟨ns, hns, -⟩ := map_eq_ok_iff.1 hparse
  exact ⟨hmeets, ns, hns⟩

end NamespaceNode

end ApiTypings
