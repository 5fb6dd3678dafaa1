import ApiTypings.Declaration.Renderer
import ApiTypings.Schema.Annotation
import ApiTypings.Schema.Parse
/-!
# Compiling schemas to declarations

A `Compiler` is configured with feature definitions, a history and options. It parses the texts of
schema files, drops what is not available from the namespaces, and renders what is left.
-/

namespace ApiTypings

/-! ### Errors -/

/-- A failure of any stage. -/
inductive CompileError
  | schema (e : SchemaError)
  | feature (e : FeatureError)
  | declaration (e : DeclarationError)
  deriving DecidableEq, Repr

/-- The wording of an error. -/
def CompileError.message : CompileError → String
  | schema e => e.message
  | feature e => e.message
  | declaration e => e.message

/-! ### The compiler -/

/-- A configured compilation. -/
structure Compiler where
  resolver : Resolver := {}
  render : RenderOptions := {}
  deriving Repr, Inhabited

namespace Compiler

/-- The namespaces of the texts of schema files. -/
def parse (texts : List String) : Except CompileError (List Namespace) :=
  ((texts.mapM parseSchema).map List.flatten).mapError .schema

/-- The namespaces without what is not available. Namespaces of which nothing is left are dropped.
-/
def prune (c : Compiler) (namespaces : List Namespace) : Except CompileError (List Namespace) :=
  ((namespaces.mapM (Namespace.prune · c.resolver)).map (·.filter (!·.nodoc))).mapError .feature

/-- Renders namespaces that have been pruned. The answer is the text and the symbols. -/
def renderPruned (c : Compiler) (namespaces : List Namespace) :
    Except CompileError (String × SymbolTable) :=
  let rendering := Renderer.render { options := c.render } namespaces
  (rendering.text.map fun text => (text, .ofList rendering.symbols)).mapError .declaration

/-- Prunes and renders parsed namespaces. -/
def compile (c : Compiler) (namespaces : List Namespace) :
    Except CompileError (String × SymbolTable) := do
  c.renderPruned (← c.prune namespaces)

/-- Parses, prunes and renders the texts of schema files. -/
def compileTexts (c : Compiler) (texts : List String) : Except CompileError (String × SymbolTable) := do
  c.compile (← parse texts)

end Compiler

/-- Compiles schema texts with default options and without a history. -/
def compileWithDefaults (texts : List String) (table : FeatureTable) : Except CompileError String :=
  (Compiler.compileTexts { resolver := { table := table } } texts).map (·.1)

end ApiTypings
