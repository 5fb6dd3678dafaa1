import ApiTypings.Proofs.Declared
/-!
# Optional parameters come last

Of the parameters of a function, a method, a call or an arrow type only the last ones may be marked
as optional. Main statement: every parameter list of a rendered document is such a list, at any depth
(`Renderer.render_optionalLast`).

`Document.parameterLists` lists them in the order in which they are written, one for every place where
the text of a declaration or of a type has parameters. Template parameters are not among them: they
are a text that no part of a document looks into.
-/

namespace ApiTypings

/-! ### The parameter lists of a document -/

namespace TypeExpr

mutual

/-- The parameter lists in a type. -/
def parameterLists : TypeExpr → List (List (Parameter TypeExpr))
  | keyword _ => []
  | literal _ => []
  | named _ arguments => listsOfTypes arguments
  | array element => parameterLists element
  | tuple elements none => listsOfTypes elements
  | tuple elements (some rest) => listsOfTypes elements ++ parameterLists rest
  | intersection items => listsOfTypes items
  | union items => listsOfTypes items
  | arrow parameters returns =>
    parameters :: (listsOfParameters parameters ++ parameterLists returns)
  | object members => listsOfMembers members

/-- The parameter lists in types. -/
def listsOfTypes : List TypeExpr → List (List (Parameter TypeExpr))
  | [] => []
  | t :: ts => parameterLists t ++ listsOfTypes ts

/-- The parameter lists in the types of parameters. -/
def listsOfParameters : List (Parameter TypeExpr) → List (List (Parameter TypeExpr))
  | [] => []
  | ⟨_, _, type⟩ :: ps => parameterLists type ++ listsOfParameters ps

/-- The parameter lists in the members of an object. -/
def listsOfMembers : List (ObjectMember TypeExpr) → List (List (Parameter TypeExpr))
  | [] => []
  | .property _ _ _ type :: ms => parameterLists type ++ listsOfMembers ms
  | .method _ _ parameters returns :: ms =>
    parameters :: (listsOfParameters parameters ++ parameterLists returns) ++ listsOfMembers ms
  | .call parameters returns :: ms =>
    parameters :: (listsOfParameters parameters ++ parameterLists returns) ++ listsOfMembers ms
  | .index type :: ms => parameterLists type ++ listsOfMembers ms

end

end TypeExpr

/-- The parameter lists in a declaration. A class has a constructor with one parameter. -/
def Declaration.parameterLists : Declaration → List (List (Parameter TypeExpr))
  | typeAlias _ _ type => type.parameterLists
  | interfaceType _ _ members => TypeExpr.listsOfMembers members
  | classType name _ arguments members =>
    [⟨"arg", false, .named ⟨name, false, false⟩ (arguments.map fun a => .named ⟨a, false, true⟩ [])⟩]
      :: TypeExpr.listsOfMembers members
  | constant _ _ => []
  | typedConstant _ type => type.parameterLists
  | letVariable _ type => type.parameterLists
  | function _ parameters returns =>
    parameters :: (TypeExpr.listsOfParameters parameters ++ returns.parameterLists)

/-- The parameter lists in a document. -/
def Document.parameterLists (d : Document) : List (List (Parameter TypeExpr)) :=
  d.statements.flatMap fun s => s.declaration.parameterLists

/-! ### Types -/

variable {R : List (Parameter TypeExpr) → Prop}

/-- `R` holds of every parameter list in a type. -/
def TypeExpr.ListsHold (R : List (Parameter TypeExpr) → Prop) (e : TypeExpr) : Prop :=
  ∀ ps ∈ e.parameterLists, R ps

namespace TypeExpr

open List

theorem listsHold_listsOfTypes {ts : List TypeExpr} (h : ∀ t ∈ ts, t.ListsHold R) :
    ∀ ps ∈ listsOfTypes ts, R ps := by
  induction ts with
  | nil => exact forall_mem_nil _
  | cons t ts ih =>
    obtain ⟨ht, hts⟩ := forall_mem_cons.1 h
    exact forall_mem_append.2 ⟨ht, ih hts⟩

theorem listsHold_listsOfParameters {ps : List (Parameter TypeExpr)}
    (h : ∀ p ∈ ps, p.type.ListsHold R) : ∀ qs ∈ listsOfParameters ps, R qs := by
  induction ps with
  | nil => exact forall_mem_nil _
  | cons p ps ih =>
    obtain ⟨hp, hps⟩ := forall_mem_cons.1 h
    exact forall_mem_append.2 ⟨hp, ih hps⟩

/-- Parameters and a result: their own list, and those in their types. -/
theorem listsHold_cons {parameters : List (Parameter TypeExpr)} {returns : TypeExpr}
    (hparameters : ParametersHold R (ListsHold R) parameters) (hreturns : returns.ListsHold R) :
    ∀ ps ∈ parameters :: (listsOfParameters parameters ++ returns.parameterLists), R ps :=
  forall_mem_cons.2 ⟨hparameters.list,
    forall_mem_append.2 ⟨listsHold_listsOfParameters hparameters.types, hreturns⟩⟩

theorem listsHold_listsOfMembers {members : List (ObjectMember TypeExpr)}
    (h : ∀ m ∈ members, m.Holds R (ListsHold R)) : ∀ ps ∈ listsOfMembers members, R ps := by
  induction members with
  | nil => exact forall_mem_nil _
  | cons m members ih =>
    obtain ⟨hm, hmembers⟩ := forall_mem_cons.1 h
    have hrest : ∀ ps ∈ listsOfMembers members, R ps := ih hmembers
    cases m with
    | property doc key optional type => exact forall_mem_append.2 ⟨hm, hrest⟩
    | method doc key parameters returns =>
      exact forall_mem_append.2 ⟨listsHold_cons hm.1 hm.2, hrest⟩
    | call parameters returns => exact forall_mem_append.2 ⟨listsHold_cons hm.1 hm.2, hrest⟩
    | index type => exact forall_mem_append.2 ⟨hm, hrest⟩

/-- What holds of the parameter lists that functions are written with holds of all of them. -/
theorem keptByLowering_listsHold (R : List (Parameter TypeExpr) → Prop) :
    KeptByLowering R (ListsHold R) where
  keyword _ := forall_mem_nil _
  literal _ := forall_mem_nil _
  named _ _ _ h := listsHold_listsOfTypes h
  array h := h
  tuple {_ rest} h hrest := by
    cases rest with
    | none => exact listsHold_listsOfTypes h
    | some rest => exact forall_mem_append.2 ⟨listsHold_listsOfTypes h, hrest rest rfl⟩
  intersection _ h := listsHold_listsOfTypes h
  union _ h := listsHold_listsOfTypes h
  arrow h hreturns := listsHold_cons h hreturns
  object h := listsHold_listsOfMembers h

end TypeExpr

/-! ### Documents -/

/-- The parameter lists in a declaration are those in its types and, of a class, that of its
constructor. -/
theorem Declaration.forall_parameterLists {d : Declaration} (h : d.Holds R (TypeExpr.ListsHold R))
    (hconstructor : ∀ type, R [⟨"arg", false, type⟩]) : ∀ ps ∈ d.parameterLists, R ps := by
  cases d with
  | typeAlias name templates type => exact h
  | interfaceType name templates members => exact TypeExpr.listsHold_listsOfMembers h
  | classType name templates arguments members =>
    exact List.forall_mem_cons.2 ⟨hconstructor _, TypeExpr.listsHold_listsOfMembers h⟩
  | constant name value => exact List.forall_mem_nil _
  | typedConstant name type => exact h
  | letVariable name type => exact h
  | function name parameters returns => exact TypeExpr.listsHold_cons h.1 h.2

/-- **What holds of every way to write a function** holds of every parameter list of a document. -/
theorem Document.forall_parameterLists {namespaces : List Namespace}
    (hconstructor : ∀ type, R [⟨"arg", false, type⟩])
    (hcalls : ∀ ns ∈ visibleNamespaces namespaces, ∀ p ∈ Property.visible ns.members,
      p.type.Calls R)
    {options : RenderOptions} {state : RendererState} {d : Document}
    (h : (declareNamespaces options namespaces state).result = .ok d) :
    ∀ ps ∈ d.parameterLists, R ps := by
  have hstatements : Statement.AllHold R (TypeExpr.ListsHold R) d.statements :=
    (TypeExpr.keptByLowering_listsHold R).result_declareNamespaces hcalls h
  intro ps hps
  obtain ⟨s, hs, hps⟩ := List.mem_flatMap.1 hps
  exact Declaration.forall_parameterLists (hstatements s hs) hconstructor ps hps

namespace Renderer

/-- **Optional parameters come last.** Whenever namespaces render, what is rendered is the text of a
document in which no parameter that is marked as optional is followed by one that is not: in the
declarations of functions, in methods, in calls and in arrow types, at any depth. -/
theorem render_optionalLast {r : Renderer} {namespaces : List Namespace} {text : String}
    (h : (r.render namespaces).text = .ok text) :
    ∃ document : Document,
      (declareNamespaces r.options namespaces r.state).result = .ok document ∧
        text = document.text r.options.indent ∧
        ∀ ps ∈ document.parameterLists, OptionalLast ps := by
  obtain ⟨document, hdocument, rfl⟩ := map_eq_ok_iff.1 h
  have hlists : ∀ ps ∈ document.parameterLists, OptionalLast ps :=
    Document.forall_parameterLists (fun _ => List.pairwise_singleton _ _)
      (fun _ _ p _ => p.type.calls_optionalLast) hdocument
  exact ⟨document, hdocument, rfl, hlists⟩

/-- A parameter that may be left out. -/
def optionalParameter (name : String) (type : ApiType) : Property ApiType :=
  { optional := true, name := name, type := type }

/-- A handler with an optional parameter before a required one and an optional one after it. -/
def visitor : ApiType :=
  .function [optionalParameter "depth" .any, .plain "node" .any, optionalParameter "note" .any] none
    none false

/-- A type with a method that takes such a handler, and an asynchronous function whose callback takes
one. -/
def visitors : Namespace where
  name := "trees"
  members := [
    { isType := true
      name := "Tree"
      type := .object [.plain "visit" (.function [optionalParameter "from" (.named "Tree"),
        .plain "handler" visitor, optionalParameter "limit" .any] none none false)] none none none },
    .plain "load" (.function [optionalParameter "key" .any] none
      (some (.plain "done" (.function [.plain "tree" (.named "Tree"),
        optionalParameter "handler" visitor, .plain "last" .any] none none false))) true)]

/-- Of ten parameter lists six have an optional parameter, always the last one: the method is declared
twice, and so is the function, each time with the handler and the callback written out. -/
theorem render_visitors :
    ∃ text document,
      (render {} [visitors]).text = .ok text ∧
      (declareNamespaces {} [visitors] {}).result = .ok document ∧
      document.parameterLists.map (fun ps => ps.map fun p => p.optional) =
        [[false, false, true], [false, false, true], [false, true], [false, false, true],
          [false, false], [false, false, false], [false, false, true],
          [false], [false, false, false], [false, false, true]] ∧
      ∀ ps ∈ document.parameterLists, OptionalLast ps := by
  have hrenders : (render {} [visitors]).text.toOption.isSome = true := by decide +kernel
  have hmarks : (declareNamespaces {} [visitors] {}).result.map
      (fun d => d.parameterLists.map fun ps => ps.map fun p => p.optional) =
        .ok [[false, false, true], [false, false, true], [false, true], [false, false, true],
          [false, false], [false, false, false], [false, false, true],
          [false], [false, false, false], [false, false, true]] := by
    decide +kernel
  cases htext : (render {} [visitors]).text with
  | error e =>
    rw [htext] at hrenders
    cases hrenders
  | ok text =>
    obtain ⟨document, hdocument, -, hlast⟩ := render_optionalLast htext
    obtain ⟨document', hdocument', hmarks⟩ := map_eq_ok_iff.1 hmarks
    obtain rfl : document' = document := by
      rw [hdocument'] at hdocument
      cases hdocument
      rfl
    exact ⟨text, document', rfl, hdocument', hmarks, hlast⟩

end Renderer

end ApiTypings
