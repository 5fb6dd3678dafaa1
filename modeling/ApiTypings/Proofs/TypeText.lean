import ApiTypings.Proofs.Buildings
import ApiTypings.Proofs.TypeGrammar
/-!
# The text of a type and the grammar

The text of an expression is spelled by tokens, from which the tree of the expression can be read: as
an operand if the text is for a tight place, and otherwise as a type (`TypeExpr.spells_of_lower`). So
every type in a tight place that needs parentheses has them.

`Spells φ text` says that `text` is spelled by tokens from which `φ` can be read, whatever comes after
them. There is one lemma for each rule of the grammar, and one for each kind of expression.
-/

namespace ApiTypings

/-! ### Spelling -/

/-- How a token is written, with the spaces around it. -/
@[simp]
def TypeToken.spelling : TypeToken → String
  | atom text => text
  | name text => text
  | separator .comma => ", "
  | separator .amp => " & "
  | separator .bar => " | "
  | openParen => "("
  | closeParen => ")"
  | openBracket => "["
  | closeBracket => "]"
  | openAngle => "<"
  | closeAngle => ">"
  | dots => "..."
  | question => "?"
  | colon => ": "
  | arrow => " => "

/-- Tokens one after another. -/
def spell : List TypeToken → String
  | [] => ""
  | x :: xs => x.spelling ++ spell xs

@[simp]
theorem spell_nil : spell [] = "" :=
  rfl

@[simp]
theorem spell_cons (x : TypeToken) (xs : List TypeToken) : spell (x :: xs) = x.spelling ++ spell xs :=
  rfl

@[simp]
theorem spell_append (xs ys : List TypeToken) : spell (xs ++ ys) = spell xs ++ spell ys := by
  induction xs with
  | nil => exact String.empty_append.symm
  | cons x xs ih => rw [List.cons_append, spell_cons, spell_cons, ih, String.append_assoc]

/-- The text is spelled by tokens that are read as `φ`, whatever comes after them. -/
def Spells (φ : TypePhrase) (text : String) : Prop :=
  ∃ tokens, text = spell tokens ∧ ∀ r, Reads φ (tokens ++ r) r

/-! ### Rules -/

namespace Spells

open TypeToken

variable {φ φ' ψ : TypePhrase} {t : TypeTree} {ts : List TypeTree} {sep : TypeSeparator}
  {text text' : String}

/-- A rule that reads one phrase between tokens. -/
theorem surround (h : Spells φ text) (before after : List TypeToken)
    (hrule : ∀ s r, Reads φ s (after ++ r) → Reads ψ (before ++ s) r) :
    Spells ψ (spell before ++ text ++ spell after) := by
  obtain ⟨tokens, rfl, htokens⟩ := h
  refine ⟨before ++ (tokens ++ after), ?_, fun r => ?_⟩
  · rw [spell_append, spell_append, String.append_assoc]
  · rw [List.append_assoc, List.append_assoc]
    exact hrule _ r (htokens (after ++ r))

/-- A rule that reads two phrases with tokens around them. -/
theorem join (h : Spells φ text) (h' : Spells φ' text') (before between after : List TypeToken)
    (hrule : ∀ s s' r, Reads φ s (between ++ s') → Reads φ' s' (after ++ r) →
      Reads ψ (before ++ s) r) :
    Spells ψ (spell before ++ text ++ spell between ++ text' ++ spell after) := by
  obtain ⟨tokens, rfl, htokens⟩ := h
  obtain ⟨tokens', rfl, htokens'⟩ := h'
  refine ⟨before ++ (tokens ++ (between ++ (tokens' ++ after))), ?_, fun r => ?_⟩
  · simp only [spell_append, String.append_assoc]
  · simp only [List.append_assoc]
    exact hrule _ _ r (htokens _) (htokens' (after ++ r))

theorem atom (x : String) : Spells (.one .primary (.atom x)) x :=
  ⟨[.atom x], by simp, fun _ => .atom⟩

theorem name (x : String) : Spells (.one .primary (.name x [])) x :=
  ⟨[.name x], by simp, fun _ => .name⟩

theorem applied (x : String) (h : Spells (.several .comma ts) text) :
    Spells (.one .primary (.name x ts)) (x ++ "<" ++ text ++ ">") := by
  simpa using h.surround [.name x, openAngle] [closeAngle] fun _ _ => Reads.applied

theorem parens (h : Spells (.one .type t) text) :
    Spells (.one .primary t) ("(" ++ text ++ ")") := by
  simpa using h.surround [openParen] [closeParen] fun _ _ => Reads.parens

theorem emptyTuple : Spells (.one .primary (.tuple [] none)) "[]" :=
  ⟨[openBracket, closeBracket], rfl, fun _ => .emptyTuple⟩

theorem tuple (h : Spells (.several .comma ts) text) :
    Spells (.one .primary (.tuple ts none)) ("[" ++ text ++ "]") := by
  simpa using h.surround [openBracket] [closeBracket] fun _ _ => Reads.tuple

theorem openTuple (h : Spells (.several .comma ts) text) (hrest : Spells (.one .operand t) text') :
    Spells (.one .primary (.tuple ts (some t)))
      ("[" ++ (text ++ ", " ++ ("..." ++ text' ++ "[]")) ++ "]") := by
  have hdots (x : String) : ", ..." ++ x = ", " ++ ("..." ++ x) := by
    rw [← String.append_assoc]
    rfl
  simpa [String.append_assoc, hdots] using
    h.join hrest [openBracket] [separator .comma, dots] [openBracket, closeBracket, closeBracket]
      fun _ _ _ => Reads.openTuple

theorem restTuple (hrest : Spells (.one .operand t) text) :
    Spells (.one .primary (.tuple [] (some t))) ("[" ++ ("..." ++ text ++ "[]") ++ "]") := by
  have hdots (x : String) : "[..." ++ x = "[" ++ ("..." ++ x) := by
    rw [← String.append_assoc]
    rfl
  simpa [String.append_assoc, hdots] using
    hrest.surround [openBracket, dots] [openBracket, closeBracket, closeBracket] fun _ _ =>
      Reads.restTuple

theorem array (h : Spells (.one .operand t) text) :
    Spells (.one .operand (.array t)) (text ++ "[]") := by
  simpa using h.surround [] [openBracket, closeBracket] fun _ _ => Reads.array

/-- A rule that reads just one phrase. -/
theorem unit (h : Spells φ text) (hrule : ∀ s r, Reads φ s r → Reads ψ s r) : Spells ψ text := by
  simpa using h.surround [] [] hrule

theorem ofPrimary (h : Spells (.one .primary t) text) : Spells (.one .operand t) text :=
  h.unit fun _ _ => Reads.ofPrimary

theorem single (h : Spells (.one sep.items t) text) : Spells (.several sep [t]) text :=
  h.unit fun _ _ => Reads.single

theorem more (h : Spells (.one sep.items t) text) (hmore : Spells (.several sep ts) text') :
    Spells (.several sep (t :: ts)) (text ++ (separator sep).spelling ++ text') := by
  simpa using h.join hmore [] [separator sep] [] fun _ _ _ => Reads.more

theorem conjuncts (h : Spells (.several .amp ts) text) :
    Spells (.one .intersection (.intersectionOf ts)) text :=
  h.unit fun _ _ => Reads.conjuncts

theorem alternatives (h : Spells (.several .bar ts) text) :
    Spells (.one .type (.unionOf ts)) text :=
  h.unit fun _ _ hs => .ofUnion (.alternatives hs)

/-- An intersection is a type. -/
theorem ofIntersection (h : Spells (.one .intersection t) text) : Spells (.one .type t) text :=
  alternatives (single h)

/-- An operand is a type. -/
theorem ofOperand (h : Spells (.one .operand t) text) : Spells (.one .type t) text :=
  ofIntersection (conjuncts (single h))

/-- Several texts with a separator between them. -/
theorem intercalate {texts : List String}
    (h : List.Forall₂ (fun t text => Spells (.one sep.items t) text) ts texts) (hne : ts ≠ []) :
    Spells (.several sep ts) ((separator sep).spelling.intercalate texts) := by
  -- No separator comes after the last type, so the step asks whether there is another one.
  induction h with
  | nil => exact absurd rfl hne
  | cons h hrest ih =>
    cases hrest with
    | nil =>
      rw [String.intercalate_singleton]
      exact single h
    | cons h' hrest' =>
      rw [String.intercalate_cons_cons]
      exact more h (ih (List.cons_ne_nil _ _))

/-! ### Parameters -/

theorem parameter (x : String) (optional : Bool) (h : Spells (.one .type t) text) :
    Spells (.parameter ⟨x, optional, t⟩) (x ++ optionalMark optional ++ ": " ++ text) := by
  cases optional with
  | false =>
    simpa [optionalMark] using
      h.surround [.name x, colon] [] fun _ r hs => Reads.required (r := r) hs
  | true =>
    simpa [optionalMark, String.append_assoc] using
      h.surround [.name x, question, colon] [] fun _ r hs => Reads.optional (r := r) hs

theorem parameters {ps : List (Parameter TypeTree)} {texts : List String}
    (h : List.Forall₂ (fun p text => Spells (.parameter p) text) ps texts) :
    Spells (.parameters ps) (commaSeparated texts) := by
  unfold commaSeparated
  induction h with
  | nil => exact ⟨[], rfl, fun _ => .noParameters⟩
  | cons h hrest ih =>
    cases hrest with
    | nil =>
      rw [String.intercalate_singleton]
      exact h.unit fun _ _ => Reads.lastParameter
    | cons h' hrest' =>
      rw [String.intercalate_cons_cons]
      simpa using h.join ih [] [separator .comma] [] fun _ _ _ => Reads.parameters

theorem arrow {ps : List (Parameter TypeTree)} (hps : Spells (.parameters ps) text)
    (h : Spells (.one .type t) text') :
    Spells (.one .type (.arrow ps t)) ("(" ++ text ++ ") => " ++ text') := by
  simpa using hps.join h [openParen] [closeParen, .arrow] [] fun _ _ _ => Reads.arrow

end Spells

/-! ### Trees of expressions -/

namespace TypeExpr

mutual

/-- The tree of an expression on a line at depth `level`. An object is an atom. -/
def tree (unit : String) (level : ℕ) : TypeExpr → TypeTree
  | keyword word => .atom word
  | literal value => .atom value.text
  | named target arguments => .name target.name (trees unit level arguments)
  | array element => .array (tree unit level element)
  | tuple elements none => .tuple (trees unit level elements) none
  | tuple elements (some rest) => .tuple (trees unit level elements) (some (tree unit level rest))
  | intersection items => .intersection (trees unit level items)
  | union items => .union (trees unit level items)
  | arrow parameters returns =>
    .arrow (parameterTrees unit level parameters) (tree unit level returns)
  | object members => .atom (text unit level false (object members))

/-- The trees of several expressions. -/
def trees (unit : String) (level : ℕ) : List TypeExpr → List TypeTree
  | [] => []
  | t :: ts => tree unit level t :: trees unit level ts

/-- The trees of parameters. -/
def parameterTrees (unit : String) (level : ℕ) : List (Parameter TypeExpr) → List (Parameter TypeTree)
  | [] => []
  | ⟨name, optional, type⟩ :: ps =>
    ⟨name, optional, tree unit level type⟩ :: parameterTrees unit level ps

end

variable {unit : String} {level : ℕ}

theorem trees_eq_map (ts : List TypeExpr) : trees unit level ts = ts.map (tree unit level) := by
  induction ts with
  | nil => rfl
  | cons t ts ih => rw [trees, ih, List.map_cons]

theorem length_trees (ts : List TypeExpr) : (trees unit level ts).length = ts.length := by
  rw [trees_eq_map, List.length_map]

/-! ### Expressions -/

/-- The category that is read in a tight place, or in another one. -/
def category (tight : Bool) : TypeCategory :=
  if tight then .operand else .type

/-- The text of an expression is spelled by tokens from which its tree can be read. -/
def SpellsTree (e : TypeExpr) : Prop :=
  ∀ unit level tight, Spells (.one (category tight) (e.tree unit level)) (e.text unit level tight)

variable {t : TypeTree} {s : String}

/-- What is primary needs no parentheses. -/
theorem spells_of_primary (h : Spells (.one .primary t) s) (tight : Bool) :
    Spells (.one (category tight) t) s := by
  cases tight with
  | true => exact h.ofPrimary
  | false => exact h.ofPrimary.ofOperand

/-- Any type can stand in a tight place in parentheses. -/
theorem spells_parenthesized (h : Spells (.one .type t) s) (tight : Bool) :
    Spells (.one (category tight) t) (parenthesized tight s) := by
  cases tight with
  | true => exact h.parens.ofPrimary
  | false => exact h

/-- Several expressions spell several types of a category that what is read in their places is of. -/
theorem forall₂_texts {c : TypeCategory} (tight : Bool)
    (hc : ∀ {t s}, Spells (.one (category tight) t) s → Spells (.one c t) s)
    {es : List TypeExpr} (h : ∀ e ∈ es, e.SpellsTree) :
    List.Forall₂ (fun t s => Spells (.one c t) s) (trees unit level es)
      (texts unit level tight es) := by
  induction es with
  | nil => exact .nil
  | cons e es ih =>
    obtain ⟨he, hes⟩ := List.forall_mem_cons.1 h
    exact .cons (hc (he unit level tight)) (ih hes)

theorem forall₂_parameterTexts {ps : List (Parameter TypeExpr)} (h : ∀ p ∈ ps, p.type.SpellsTree) :
    List.Forall₂ (fun p text => Spells (.parameter p) text) (parameterTrees unit level ps)
      (parameterTexts unit level ps) := by
  induction ps with
  | nil => exact .nil
  | cons p ps ih =>
    obtain ⟨hp, hps⟩ := List.forall_mem_cons.1 h
    exact .cons (.parameter p.name p.optional (hp unit level false)) (ih hps)

/-- The same text for tight places and others. -/
theorem text_object (tight : Bool) (members : List (ObjectMember TypeExpr)) :
    text unit level tight (object members) = text unit level false (object members) := by
  cases members <;> rfl

theorem spells_named (target : Reference) {arguments : List TypeExpr}
    (h : ∀ e ∈ arguments, e.SpellsTree) : SpellsTree (.named target arguments) := by
  intro unit level tight
  cases arguments with
  | nil => exact spells_of_primary (.name target.name) tight
  | cons a as =>
    have htexts := @forall₂_texts unit level .type false id (a :: as) h
    have harguments : Spells (.several .comma (trees unit level (a :: as)))
        (commaSeparated (texts unit level false (a :: as))) :=
      @Spells.intercalate _ .comma _ htexts (List.cons_ne_nil _ _)
    exact spells_of_primary (harguments.applied target.name) tight

theorem spells_tuple {elements : List TypeExpr} {rest : Option TypeExpr}
    (h : ∀ e ∈ elements, e.SpellsTree) (hrest : ∀ e ∈ rest, e.SpellsTree) :
    SpellsTree (.tuple elements rest) := by
  intro unit level tight
  have helements (hne : elements ≠ []) : Spells (.several .comma (trees unit level elements))
      (commaSeparated (texts unit level false elements)) := by
    have htexts := @forall₂_texts unit level .type false id elements h
    refine @Spells.intercalate _ .comma _ htexts fun hnil => hne ?_
    rw [← List.length_eq_zero_iff, ← @length_trees unit level, hnil, List.length_nil]
  cases rest with
  | none =>
    by_cases hne : elements = []
    · rw [hne]
      exact spells_of_primary .emptyTuple tight
    · exact spells_of_primary (helements hne).tuple tight
  | some rest =>
    have hrest : Spells (.one .operand (rest.tree unit level)) (rest.text unit level true) :=
      hrest rest rfl unit level true
    by_cases hne : elements = []
    · rw [hne]
      exact spells_of_primary hrest.restTuple tight
    · have htexts : texts unit level false elements ≠ [] := by
        cases elements with
        | nil => exact absurd rfl hne
        | cons e es => exact List.cons_ne_nil _ _
      have hlast (last : String) : commaSeparated (texts unit level false elements ++ [last]) =
          commaSeparated (texts unit level false elements) ++ ", " ++ last := by
        rw [commaSeparated, String.intercalate_append_of_ne_nil htexts (List.cons_ne_nil _ _),
          String.intercalate_singleton]
        rfl
      rw [tree, text, hlast]
      exact spells_of_primary ((helements hne).openTuple hrest) tight

/-- Every way of building expressions keeps that their text is that of their tree. -/
theorem keptByLowering_spellsTree : KeptByLowering OptionalLast SpellsTree where
  keyword word _ _ tight := spells_of_primary (.atom word) tight
  literal value _ _ tight := spells_of_primary (.atom value.text) tight
  named target _ _ h := spells_named target h
  array {element} h unit level tight := by
    have hsuffix : Spells (.one .operand (.array (element.tree unit level)))
        (element.text unit level true ++ "[]") := (h unit level true).array
    cases tight with
    | true => exact hsuffix
    | false => exact hsuffix.ofOperand
  tuple h hrest := spells_tuple h hrest
  intersection {items} hlength h unit level tight := by
    have htexts := @forall₂_texts unit level .operand true id items h
    have htrees : 2 ≤ (trees unit level items).length := (length_trees items).symm ▸ hlength
    have hne : trees unit level items ≠ [] := List.ne_nil_of_length_pos (Nat.zero_lt_of_lt htrees)
    have hconjuncts := (@Spells.intercalate _ .amp _ htexts hne).conjuncts.ofIntersection
    rw [TypeTree.intersectionOf_eq htrees] at hconjuncts
    exact spells_parenthesized hconjuncts tight
  union {items} hlength h unit level tight := by
    -- Items are written for tight places, so each is an operand, and so an intersection.
    have htexts := @forall₂_texts unit level .intersection true
      (fun hs => (@Spells.single _ .amp _ hs).conjuncts) items h
    have htrees : 2 ≤ (trees unit level items).length := (length_trees items).symm ▸ hlength
    have hne : trees unit level items ≠ [] := List.ne_nil_of_length_pos (Nat.zero_lt_of_lt htrees)
    have halternatives := (@Spells.intercalate _ .bar _ htexts hne).alternatives
    rw [TypeTree.unionOf_eq htrees] at halternatives
    exact spells_parenthesized halternatives tight
  arrow {ps returns} hps hreturns unit level tight :=
    spells_parenthesized ((Spells.parameters (forall₂_parameterTexts hps.types)).arrow
      (hreturns unit level false)) tight
  object {members} _ unit level tight := by
    rw [text_object]
    exact spells_of_primary (.atom _) tight

/-- **The text of a lowered type** is spelled by tokens from which its tree can be read: as an operand
from the text for a tight place, and as a type from the other one. -/
theorem spells_of_lower {t : ApiType} {scope : List String} {path : String} {e : TypeExpr}
    (h : t.lower scope path = .ok e) : e.SpellsTree :=
  keptByLowering_spellsTree.lower h

end TypeExpr

end ApiTypings
