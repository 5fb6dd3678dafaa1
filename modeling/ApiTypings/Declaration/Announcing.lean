import ApiTypings.Declaration.Error
import ApiTypings.Declaration.Symbol
/-!
# Announcing symbols

Declaring namespaces announces symbols on the way, keeps a state, and may fail. `Announcing α` is
such a computation. What was announced and the state stay if it fails.

**Scope.** While a type is declared its template parameters are in scope. `Announcing.withScope` is
the only way to bring names into scope, and takes them out again also after a failure.

**Muting.** All overloads of a function are the same symbol, so announcements are muted from the
second overload on, and audible again when the function is done. Nothing makes them audible after a
failure.
-/

namespace ApiTypings

/-- What a renderer keeps in mind. -/
structure RendererState where
  /-- The template parameters of the type that is being declared. -/
  scope : List String := []
  /-- Announcements are muted. -/
  muted : Bool := false
  deriving DecidableEq, Repr, Inhabited

/-- What a computation comes to. -/
structure Announced (α : Type) where
  result : Except DeclarationError α
  /-- The symbols that were heard, in their order. -/
  symbols : List DeclaredSymbol
  /-- The state for what comes next. -/
  state : RendererState

/-- A computation that keeps a state, announces symbols and may fail. -/
def Announcing (α : Type) : Type :=
  RendererState → Announced α

namespace Announcing

variable {α β : Type}

/-- Goes on with the value that a computation came to, if it did not fail. -/
def next (x : Announced α) (f : α → Announcing β) : Announced β :=
  match x.result with
  | .error e => ⟨.error e, x.symbols, x.state⟩
  | .ok a =>
    let y := f a x.state
    ⟨y.result, x.symbols ++ y.symbols, y.state⟩

instance : Monad Announcing where
  pure a := fun s => ⟨.ok a, [], s⟩
  bind x f := fun s => next (x s) f

/-- A computation that announces nothing. -/
def lift (result : Except DeclarationError α) : Announcing α :=
  fun s => ⟨result, [], s⟩

/-- Announces a symbol. -/
def announce (path : String) (kind : SymbolKind) (deprecated : Bool) : Announcing Unit :=
  fun s => ⟨.ok (), if s.muted then [] else [⟨path, kind, deprecated⟩], s⟩

/-- Mutes announcements, or makes them audible again. -/
def mute (muted : Bool) : Announcing Unit :=
  fun s => ⟨.ok (), [], { s with muted := muted }⟩

/-- The names that are in scope. -/
def scope : Announcing (List String) :=
  fun s => ⟨.ok s.scope, [], s⟩

/-- A computation with these names in scope. No name is in scope after it. -/
def withScope (names : List String) (x : Announcing α) : Announcing α := fun s =>
  let y := x { s with scope := names }
  { y with state := { y.state with scope := [] } }

/-! ### Laws -/

theorem next_pure (x : Announced α) : next x (fun a => (pure a : Announcing α)) = x := by
  obtain ⟨result, symbols, state⟩ := x
  cases result with
  | error e => rfl
  | ok a => exact congrArg (Announced.mk (.ok a) · state) (List.append_nil symbols)

theorem next_next {γ : Type} (x : Announced α) (f : α → Announcing β) (g : β → Announcing γ) :
    next (next x f) g = next x fun a => f a >>= g := by
  obtain ⟨result, symbols, state⟩ := x
  cases result with
  | error e => rfl
  | ok a =>
    show next ⟨(f a state).result, symbols ++ (f a state).symbols, (f a state).state⟩ g = _
    simp only [next, bind]
    cases (f a state).result with
    | error e => rfl
    | ok b => simp only [List.append_assoc]

instance : LawfulMonad Announcing :=
  LawfulMonad.mk' Announcing (fun x => funext fun s => next_pure (x s)) (fun _ _ => rfl)
    (fun x f g => funext fun s => next_next (x s) f g)

end Announcing

end ApiTypings
