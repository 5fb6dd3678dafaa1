import ApiTypings.Proofs.TypeGrammar
/-!
# Types can be read in one way only

Where a type of a category can be read, and nothing comes after it that could make it longer, no other
type of the category can be read (`Reads.unique`). So a text has one tree at most.

The proof is one induction on what was read (`Reads.isDetermined`), with a lemma for each rule. Two
places need more than the next token:

* What begins with a parenthesis is an arrow type or has a type in parentheses. A list of parameters and
  a type differ in what comes after the first name (`Reads.not_parens_of_parameters`).
* An operand may go on with array suffixes, so what is determined of an operand is the primary type that
  it begins with; how many suffixes it has is told by what comes after them (`brackets_inj`).
-/

namespace ApiTypings

open TypeToken

/-! ### The first tokens -/

namespace TypePhrase

/-- The phrase is one type or several. -/
def IsType : TypePhrase → Prop
  | one _ _ => True
  | several _ _ => True
  | _ => False

/-- The phrase is no type as a whole, and does not begin with one either. -/
def IsTight : TypePhrase → Prop
  | one c _ => c ≠ .type
  | several sep _ => sep ≠ .comma
  | _ => False

end TypePhrase

/-- Whether a type can begin with the token. -/
def TypeToken.begins : TypeToken → Bool
  | .atom _ => true
  | .name _ => true
  | openParen => true
  | openBracket => true
  | _ => false

namespace Reads

variable {φ : TypePhrase} {s s' r r' : List TypeToken} {t t' : TypeTree} {c : TypeCategory}

theorem begins (h : Reads φ s r) (hφ : φ.IsType) : ∃ x s', s = x :: s' ∧ x.begins = true := by
  induction h with
  | arrow | parens => exact ⟨openParen, _, rfl, rfl⟩
  | emptyTuple | tuple | openTuple | restTuple => exact ⟨openBracket, _, rfl, rfl⟩
  | @atom x => exact ⟨.atom x, _, rfl, rfl⟩
  | @name x => exact ⟨.name x, _, rfl, rfl⟩
  | @applied x => exact ⟨.name x, _, rfl, rfl⟩
  | ofUnion _ ih | alternatives _ ih | conjuncts _ ih | array _ ih | ofPrimary _ ih | single _ ih =>
    exact ih trivial
  | more _ _ ih _ => exact ih trivial
  | required | optional | noParameters | lastParameter | parameters => cases hφ

/-- No type begins with a token that none can begin with. -/
theorem false_of_begins {x : TypeToken} (h : Reads φ (x :: s) r) (hφ : φ.IsType)
    (hx : x.begins = false) : False := by
  obtain ⟨y, s', heq, hy⟩ := h.begins hφ
  cases heq
  rw [hx] at hy
  cases hy

/-- A type that begins like a parameter is a name, and stops there. -/
theorem eq_of_name (h : Reads φ s r) (hφ : φ.IsType) {x : String} {y : TypeToken}
    (hy : y = colon ∨ y = question) (hs : s = .name x :: y :: s') : r = y :: s' := by
  induction h with
  | arrow | parens | emptyTuple | tuple | openTuple | restTuple | atom => cases hs
  | name =>
    cases hs
    rfl
  | applied =>
    cases hs
    simp at hy
  | ofUnion _ ih | alternatives _ ih | conjuncts _ ih | ofPrimary _ ih | single _ ih =>
    exact ih trivial hs
  -- An operand or an item would have to stop before brackets or a separator, not before `y`.
  | array _ ih =>
    cases ih trivial hs
    simp at hy
  | more _ _ ih _ =>
    cases ih trivial hs
    simp at hy
  | required | optional | noParameters | lastParameter | parameters => cases hφ

/-- A tight type that begins with a parenthesis begins with a type in parentheses. -/
theorem exists_parens (h : Reads φ s r) (hφ : φ.IsTight) (hs : s = openParen :: s') :
    ∃ t m, Reads (.one .type t) s' (closeParen :: m) := by
  induction h with
  | arrow | ofUnion => exact absurd rfl hφ
  | emptyTuple | tuple | openTuple | restTuple | atom | name | applied => cases hs
  | parens h =>
    cases hs
    exact ⟨_, _, h⟩
  | alternatives _ ih | conjuncts _ ih => exact ih (fun heq => by cases heq) hs
  | array _ ih | ofPrimary _ ih => exact ih (fun heq => by cases heq) hs
  | @single sep _ _ _ _ ih => exact ih (TypeSeparator.items_ne_type hφ) hs
  | @more sep _ _ _ _ _ _ _ ih _ => exact ih (TypeSeparator.items_ne_type hφ) hs
  | required | optional | noParameters | lastParameter | parameters => cases hφ

/-- What stands in parentheses is no list of parameters with an arrow after it. -/
theorem not_parens_of_parameters {ps : List (Parameter TypeTree)}
    (hps : Reads (.parameters ps) s (closeParen :: .arrow :: s')) :
    ¬Reads (.one .type t) s (closeParen :: r) := by
  intro h
  have hname {p : Parameter TypeTree} {m : List TypeToken} (hp : Reads (.parameter p) s m) : False := by
    cases hp with
    | required hp =>
      have heq := h.eq_of_name trivial (.inl rfl) rfl
      cases heq
    | optional hp =>
      have heq := h.eq_of_name trivial (.inr rfl) rfl
      cases heq
  cases hps with
  | noParameters => exact h.false_of_begins trivial rfl
  | lastParameter hp => exact hname hp
  | parameters hp _ => exact hname hp

end Reads

/-! ### What can come after a type -/

/-- How tight a category is. A union alone is as loose as a type. -/
def TypeCategory.level : TypeCategory → ℕ
  | type => 0
  | union => 0
  | intersection => 1
  | operand => 2
  | primary => 3

/-- How tight the categories are that end with a token or go on after it, if there are any. -/
def TypeToken.level? : TypeToken → Option ℕ
  | separator .bar => some 0
  | separator .amp => some 1
  | openBracket => some 2
  | openAngle => some 3
  | _ => none

/-- What comes after a type of a category cannot make it longer. -/
def Stops (c : TypeCategory) (r : List TypeToken) : Prop :=
  ∀ x ∈ r.head?, ∀ l ∈ x.level?, l < c.level

/-- What comes after several types cannot make them more. After a comma come dots, if any comes. -/
def Ends (sep : TypeSeparator) (r : List TypeToken) : Prop :=
  Stops sep.items r ∧ ∀ s, r = separator sep :: s → s.head? = some dots

variable {c c' : TypeCategory} {sep : TypeSeparator} {r r' : List TypeToken}

theorem Stops.mono (h : Stops c r) (hc : c.level ≤ c'.level) : Stops c' r :=
  fun x hx l hl => Nat.lt_of_lt_of_le (h x hx l hl) hc

theorem stops_cons {x : TypeToken} (h : ∀ l ∈ x.level?, l < c.level) : Stops c (x :: r) := by
  intro y hy
  obtain rfl := Option.mem_some_iff.1 hy
  exact h

/-- A token that makes no type longer stops every type. -/
theorem stops_of_level {x : TypeToken} (h : x.level? = none) : Stops c (x :: r) :=
  stops_cons fun l hl => by
    rw [h] at hl
    cases hl

theorem stops_of_head (h : r.head? = some closeParen) : Stops c r := by
  cases r with
  | nil => cases h
  | cons x r =>
    cases h
    exact stops_of_level rfl

/-- A separator stops the types on its left. -/
theorem stops_separator (sep : TypeSeparator) (r : List TypeToken) :
    Stops sep.items (separator sep :: r) := by
  refine stops_cons fun l hl => ?_
  cases sep with
  | comma => cases hl
  | amp | bar =>
    cases hl
    decide

theorem ends_closeAngle (r : List TypeToken) : Ends sep (closeAngle :: r) :=
  ⟨stops_of_level rfl, fun s hs => by cases hs⟩

theorem ends_closeBracket (r : List TypeToken) : Ends sep (closeBracket :: r) :=
  ⟨stops_of_level rfl, fun s hs => by cases hs⟩

theorem ends_comma_dots (r : List TypeToken) : Ends .comma (separator .comma :: dots :: r) :=
  ⟨stops_of_level rfl, fun s hs => by cases hs; rfl⟩

theorem ends_bar (h : Stops .union r) : Ends .bar r :=
  ⟨h.mono (by decide), fun s hs => by
    rw [hs] at h
    exact absurd (h _ rfl 0 rfl) (Nat.lt_irrefl 0)⟩

theorem ends_amp (h : Stops .intersection r) : Ends .amp r :=
  ⟨h.mono (by decide), fun s hs => by
    rw [hs] at h
    exact absurd (h _ rfl 1 rfl) (Nat.lt_irrefl 1)⟩

/-! ### Array suffixes -/

/-- Tokens after that many pairs of brackets. -/
def brackets : ℕ → List TypeToken → List TypeToken
  | 0, r => r
  | n + 1, r => openBracket :: closeBracket :: brackets n r

/-- The type of arrays of arrays, that many times. -/
def TypeTree.arrays : ℕ → TypeTree → TypeTree
  | 0, t => t
  | n + 1, t => .array (arrays n t)

theorem brackets_succ (n : ℕ) (r : List TypeToken) :
    brackets n (openBracket :: closeBracket :: r) = brackets (n + 1) r := by
  induction n with
  | zero => rfl
  | succ n ih => rw [brackets, ih]; rfl

/-- How many brackets there are can be told where what comes after them is no bracket. -/
theorem brackets_inj {n n' : ℕ} (hr : Stops .operand r) (hr' : Stops .operand r')
    (h : brackets n r = brackets n' r') : n = n' ∧ r = r' := by
  have hbracket {m : List TypeToken} : ¬Stops .operand (openBracket :: m) := fun hm =>
    absurd (hm _ rfl 2 rfl) (Nat.lt_irrefl 2)
  induction n generalizing n' with
  | zero =>
    cases n' with
    | zero => exact ⟨rfl, h⟩
    | succ n' =>
      cases h
      exact absurd hr hbracket
  | succ n ih =>
    cases n' with
    | zero =>
      cases h
      exact absurd hr' hbracket
    | succ n' =>
      obtain ⟨rfl, rfl⟩ := ih (List.cons.inj (List.cons.inj h).2).2
      exact ⟨rfl, rfl⟩

theorem stops_brackets (h : Stops .operand r) (n : ℕ) : Stops .primary (brackets n r) := by
  cases n with
  | zero => exact h.mono (by decide)
  | succ n => exact stops_cons fun l hl => by cases hl; decide

/-- An operand is a primary type with array suffixes. -/
theorem Reads.operand_cases {φ : TypePhrase} {s r : List TypeToken} (h : Reads φ s r)
    {t : TypeTree} (hφ : φ = .one .operand t) :
    ∃ core m n, Reads (.one .primary core) s m ∧ m = brackets n r ∧ t = .arrays n core := by
  induction h generalizing t with
  | array _ ih =>
    cases hφ
    obtain ⟨core, m, n, hcore, rfl, rfl⟩ := ih rfl
    exact ⟨core, _, n + 1, hcore, brackets_succ n _, rfl⟩
  | ofPrimary h =>
    cases hφ
    exact ⟨_, _, 0, h, rfl, rfl⟩
  | _ => cases hφ

/-! ### Unambiguity -/

/-- Where a type can be read, no other type of the category can. -/
def IsOnly (c : TypeCategory) (t : TypeTree) (s r : List TypeToken) : Prop :=
  Stops c r → ∀ t' r', Reads (.one c t') s r' → Stops c r' → t' = t ∧ r' = r

/-- Where a phrase can be read, no other of its kind can. Of an operand this is said of the primary type
that it begins with, since its array suffixes may go on. -/
def IsDetermined : TypePhrase → List TypeToken → List TypeToken → Prop
  | .one .operand t, s, r =>
    ∃ core m n, IsOnly .primary core s m ∧ m = brackets n r ∧ t = .arrays n core
  | .one c t, s, r => IsOnly c t s r
  | .several sep ts, s, r =>
    Ends sep r → ∀ ts' r', Reads (.several sep ts') s r' → Ends sep r' → ts' = ts ∧ r' = r
  | .parameter p, s, r =>
    Stops .type r → ∀ p' r', Reads (.parameter p') s r' → Stops .type r' → p' = p ∧ r' = r
  | .parameters ps, s, r =>
    r.head? = some closeParen → ∀ ps' r', Reads (.parameters ps') s r' →
      r'.head? = some closeParen → ps' = ps ∧ r' = r

theorem IsDetermined.isOnly {t : TypeTree} {s : List TypeToken} (h : IsDetermined (.one c t) s r) :
    IsOnly c t s r := by
  cases c with
  | operand =>
    obtain ⟨core, m, n, honly, rfl, rfl⟩ := h
    intro hr t' r' h' hr'
    obtain ⟨core', m', n', hcore', rfl, rfl⟩ := h'.operand_cases rfl
    -- Both begin with the same primary type, and what is left tells how many suffixes they have.
    obtain ⟨rfl, hm⟩ := honly (stops_brackets hr n) core' _ hcore' (stops_brackets hr' n')
    obtain ⟨rfl, rfl⟩ := brackets_inj hr' hr hm
    exact ⟨rfl, rfl⟩
  | type | union | intersection | primary => exact h

/-- Where an operand can be read before brackets, an array of it can be read after them. -/
theorem IsDetermined.array {t : TypeTree} {s : List TypeToken}
    (h : IsDetermined (.one .operand t) s (openBracket :: closeBracket :: r)) :
    IsDetermined (.one .operand (.array t)) s r := by
  obtain ⟨core, m, n, honly, rfl, rfl⟩ := h
  exact ⟨core, _, n + 1, honly, brackets_succ n r, rfl⟩

namespace Reads

/-- Where dots stand no type can be read. -/
theorem not_dots {φ : TypePhrase} {s r : List TypeToken} (h : Reads φ s r) (hφ : φ.IsType) :
    s.head? ≠ some dots := by
  obtain ⟨x, s', rfl, hx⟩ := h.begins hφ
  intro hdots
  cases hdots
  cases hx

/-- Where a parenthesis is closed no parameter can be read. -/
theorem head_ne {p : Parameter TypeTree} {s r : List TypeToken} (h : Reads (.parameter p) s r) :
    s.head? ≠ some closeParen := by
  intro hclose
  cases h with
  | required _ | optional _ => cases hclose

end Reads

/-! ### Unambiguity, rule by rule -/

section Rules

variable {s s' r r' : List TypeToken} {t t' : TypeTree} {ts : List TypeTree} {x : String}

theorem isOnly_arrow {ps : List (Parameter TypeTree)}
    (h : Reads (.parameters ps) s (closeParen :: .arrow :: s'))
    (hps : IsDetermined (.parameters ps) s (closeParen :: .arrow :: s')) (ht : IsOnly .type t s' r) :
    IsOnly .type (.arrow ps t) (openParen :: s) r := by
  intro hr t' r' h' hr'
  cases h' with
  | arrow hps' ht' =>
    obtain ⟨rfl, htail⟩ := hps rfl _ _ hps' rfl
    cases htail
    obtain ⟨rfl, rfl⟩ := ht hr _ _ ht' hr'
    exact ⟨rfl, rfl⟩
  | ofUnion h' =>
    -- A union would have to begin with a type in the parentheses of the parameters.
    obtain ⟨t, m, hparens⟩ := h'.exists_parens (fun heq => by cases heq) rfl
    exact absurd hparens h.not_parens_of_parameters

theorem isOnly_ofUnion (h : Reads (.one .union t) s r) (ht : IsOnly .union t s r) :
    IsOnly .type t s r := by
  intro hr t' r' h' hr'
  cases h' with
  | arrow hps' _ =>
    obtain ⟨t, m, hparens⟩ := h.exists_parens (fun heq => by cases heq) rfl
    exact absurd hparens hps'.not_parens_of_parameters
  | ofUnion h' => exact ht hr t' r' h' hr'

theorem isOnly_alternatives (h : IsDetermined (.several .bar ts) s r) :
    IsOnly .union (.unionOf ts) s r := by
  intro hr t' r' h' hr'
  cases h' with
  | alternatives h' =>
    obtain ⟨rfl, rfl⟩ := h (ends_bar hr) _ _ h' (ends_bar hr')
    exact ⟨rfl, rfl⟩

theorem isOnly_conjuncts (h : IsDetermined (.several .amp ts) s r) :
    IsOnly .intersection (.intersectionOf ts) s r := by
  intro hr t' r' h' hr'
  cases h' with
  | conjuncts h' =>
    obtain ⟨rfl, rfl⟩ := h (ends_amp hr) _ _ h' (ends_amp hr')
    exact ⟨rfl, rfl⟩

theorem isOnly_atom : IsOnly .primary (.atom x) (.atom x :: r) r := by
  intro _ t' r' h' _
  cases h'
  exact ⟨rfl, rfl⟩

theorem not_stops_openAngle : ¬Stops .primary (openAngle :: r) :=
  fun h => absurd (h _ rfl 3 rfl) (Nat.lt_irrefl 3)

theorem isOnly_name : IsOnly .primary (.name x []) (.name x :: r) r := by
  intro hr t' r' h' _
  cases h' with
  | name => exact ⟨rfl, rfl⟩
  | applied _ => exact absurd hr not_stops_openAngle

theorem isOnly_applied (h : IsDetermined (.several .comma ts) s (closeAngle :: r)) :
    IsOnly .primary (.name x ts) (.name x :: openAngle :: s) r := by
  intro _ t' r' h' hr'
  cases h' with
  | name => exact absurd hr' not_stops_openAngle
  | applied h' =>
    obtain ⟨rfl, htail⟩ := h (ends_closeAngle _) _ _ h' (ends_closeAngle _)
    cases htail
    exact ⟨rfl, rfl⟩

theorem isOnly_parens (h : IsOnly .type t s (closeParen :: r)) :
    IsOnly .primary t (openParen :: s) r := by
  intro _ t' r' h' _
  cases h' with
  | parens h' =>
    obtain ⟨rfl, htail⟩ := h (stops_of_level rfl) _ _ h' (stops_of_level rfl)
    cases htail
    exact ⟨rfl, rfl⟩

theorem isOnly_emptyTuple :
    IsOnly .primary (.tuple [] none) (openBracket :: closeBracket :: r) r := by
  intro _ t' r' h' _
  cases h' with
  | emptyTuple => exact ⟨rfl, rfl⟩
  | tuple h' | openTuple h' _ => exact (h'.false_of_begins trivial rfl).elim

/-- What the rest of a tuple is can be told from the brackets that end it and the tuple. -/
theorem IsDetermined.rest
    (h : IsDetermined (.one .operand t) s (openBracket :: closeBracket :: closeBracket :: r))
    (h' : Reads (.one .operand t') s (openBracket :: closeBracket :: closeBracket :: r')) :
    t' = t ∧ r' = r := by
  obtain ⟨harray, htail⟩ := h.array.isOnly (stops_of_level rfl) _ _ h'.array (stops_of_level rfl)
  cases harray
  cases htail
  exact ⟨rfl, rfl⟩

theorem isOnly_tuple (h : Reads (.several .comma ts) s (closeBracket :: r))
    (hts : IsDetermined (.several .comma ts) s (closeBracket :: r)) :
    IsOnly .primary (.tuple ts none) (openBracket :: s) r := by
  intro _ t' r' h' _
  cases h' with
  | emptyTuple | restTuple => exact (h.false_of_begins trivial rfl).elim
  | tuple h' =>
    obtain ⟨rfl, htail⟩ := hts (ends_closeBracket _) _ _ h' (ends_closeBracket _)
    cases htail
    exact ⟨rfl, rfl⟩
  | openTuple h' _ =>
    obtain ⟨-, htail⟩ := hts (ends_closeBracket _) _ _ h' (ends_comma_dots _)
    cases htail

theorem isOnly_openTuple (h : Reads (.several .comma ts) s (separator .comma :: dots :: s'))
    (hts : IsDetermined (.several .comma ts) s (separator .comma :: dots :: s'))
    (hrest : IsDetermined (.one .operand t) s' (openBracket :: closeBracket :: closeBracket :: r)) :
    IsOnly .primary (.tuple ts (some t)) (openBracket :: s) r := by
  intro _ t' r' h' _
  cases h' with
  | emptyTuple | restTuple => exact (h.false_of_begins trivial rfl).elim
  | tuple h' =>
    obtain ⟨-, htail⟩ := hts (ends_comma_dots _) _ _ h' (ends_closeBracket _)
    cases htail
  | openTuple h' hrest' =>
    obtain ⟨rfl, htail⟩ := hts (ends_comma_dots _) _ _ h' (ends_comma_dots _)
    cases htail
    obtain ⟨rfl, rfl⟩ := hrest.rest hrest'
    exact ⟨rfl, rfl⟩

theorem isOnly_restTuple
    (hrest : IsDetermined (.one .operand t) s (openBracket :: closeBracket :: closeBracket :: r)) :
    IsOnly .primary (.tuple [] (some t)) (openBracket :: dots :: s) r := by
  intro _ t' r' h' _
  cases h' with
  | tuple h' | openTuple h' _ => exact (h'.false_of_begins trivial rfl).elim
  | restTuple hrest' =>
    obtain ⟨rfl, rfl⟩ := hrest.rest hrest'
    exact ⟨rfl, rfl⟩

theorem isDetermined_single (h : IsOnly sep.items t s r) :
    IsDetermined (.several sep [t]) s r := by
  intro hends ts' r' h' hends'
  cases h' with
  | single h' =>
    obtain ⟨rfl, rfl⟩ := h hends.1 _ _ h' hends'.1
    exact ⟨rfl, rfl⟩
  | more h' hmore' =>
    -- After the separator no type can come, but for dots.
    obtain ⟨-, htail⟩ := h hends.1 _ _ h' (stops_separator _ _)
    exact absurd (hends.2 _ htail.symm) (hmore'.not_dots trivial)

theorem isDetermined_more (hmore : Reads (.several sep ts) s' r)
    (h : IsOnly sep.items t s (separator sep :: s')) (hts : IsDetermined (.several sep ts) s' r) :
    IsDetermined (.several sep (t :: ts)) s r := by
  intro hends ts' r' h' hends'
  cases h' with
  | single h' =>
    obtain ⟨-, htail⟩ := h (stops_separator _ _) _ _ h' hends'.1
    exact absurd (hends'.2 _ htail) (hmore.not_dots trivial)
  | more h' hmore' =>
    obtain ⟨rfl, htail⟩ := h (stops_separator _ _) _ _ h' (stops_separator _ _)
    cases htail
    obtain ⟨rfl, rfl⟩ := hts hends _ _ hmore' hends'
    exact ⟨rfl, rfl⟩

theorem isDetermined_required (h : IsOnly .type t s r) :
    IsDetermined (.parameter ⟨x, false, t⟩) (.name x :: colon :: s) r := by
  intro hr p' r' h' hr'
  cases h' with
  | required h' =>
    obtain ⟨rfl, rfl⟩ := h hr _ _ h' hr'
    exact ⟨rfl, rfl⟩

theorem isDetermined_optional (h : IsOnly .type t s r) :
    IsDetermined (.parameter ⟨x, true, t⟩) (.name x :: question :: colon :: s) r := by
  intro hr p' r' h' hr'
  cases h' with
  | optional h' =>
    obtain ⟨rfl, rfl⟩ := h hr _ _ h' hr'
    exact ⟨rfl, rfl⟩

theorem isDetermined_noParameters : IsDetermined (.parameters []) r r := by
  intro hr ps' r' h' _
  cases h' with
  | noParameters => exact ⟨rfl, rfl⟩
  | lastParameter h' | parameters h' _ => exact absurd hr h'.head_ne

theorem isDetermined_lastParameter {p : Parameter TypeTree} (h : Reads (.parameter p) s r)
    (hp : IsDetermined (.parameter p) s r) : IsDetermined (.parameters [p]) s r := by
  intro hr ps' r' h' hr'
  cases h' with
  | noParameters => exact absurd hr' h.head_ne
  | lastParameter h' =>
    obtain ⟨rfl, rfl⟩ := hp (stops_of_head hr) _ _ h' (stops_of_head hr')
    exact ⟨rfl, rfl⟩
  | parameters h' _ =>
    obtain ⟨-, rfl⟩ := hp (stops_of_head hr) _ _ h' (stops_of_level rfl)
    cases hr

theorem isDetermined_parameters {p q : Parameter TypeTree} {ps : List (Parameter TypeTree)}
    (h : Reads (.parameter p) s (separator .comma :: s'))
    (hp : IsDetermined (.parameter p) s (separator .comma :: s'))
    (hps : IsDetermined (.parameters (q :: ps)) s' r) :
    IsDetermined (.parameters (p :: q :: ps)) s r := by
  intro hr ps' r' h' hr'
  cases h' with
  | noParameters => exact absurd hr' h.head_ne
  | lastParameter h' =>
    obtain ⟨-, rfl⟩ := hp (stops_of_level rfl) _ _ h' (stops_of_head hr')
    cases hr'
  | parameters h' hmore' =>
    obtain ⟨rfl, htail⟩ := hp (stops_of_level rfl) _ _ h' (stops_of_level rfl)
    cases htail
    obtain ⟨hmore, rfl⟩ := hps hr _ _ hmore' hr'
    cases hmore
    exact ⟨rfl, rfl⟩

end Rules

namespace Reads

/-- **The grammar is unambiguous**, phrase by phrase. -/
theorem isDetermined {φ : TypePhrase} {s r : List TypeToken} (h : Reads φ s r) :
    IsDetermined φ s r := by
  induction h with
  | arrow h _ hps ht => exact isOnly_arrow h hps ht
  | ofUnion h ht => exact isOnly_ofUnion h ht
  | alternatives _ hts => exact isOnly_alternatives hts
  | conjuncts _ hts => exact isOnly_conjuncts hts
  | array _ ht => exact ht.array
  | ofPrimary _ ht => exact ⟨_, _, 0, ht, rfl, rfl⟩
  | atom => exact isOnly_atom
  | name => exact isOnly_name
  | applied _ hts => exact isOnly_applied hts
  | parens _ ht => exact isOnly_parens ht
  | emptyTuple => exact isOnly_emptyTuple
  | tuple h hts => exact isOnly_tuple h hts
  | openTuple h _ hts hrest => exact isOnly_openTuple h hts hrest
  | restTuple _ hrest => exact isOnly_restTuple hrest
  | single _ ht => exact isDetermined_single ht.isOnly
  | more _ hmore ht hts => exact isDetermined_more hmore ht.isOnly hts
  | required _ ht => exact isDetermined_required ht
  | optional _ ht => exact isDetermined_optional ht
  | noParameters => exact isDetermined_noParameters
  | lastParameter h hp => exact isDetermined_lastParameter h hp
  | parameters h _ hp hps => exact isDetermined_parameters h hp hps

/-- **The grammar is unambiguous**: what can be read as a type of a category, with nothing after it
that could make it longer, cannot be read as another one. -/
theorem unique {s r r' : List TypeToken} {t t' : TypeTree} (h : Reads (.one c t) s r)
    (hr : Stops c r) (h' : Reads (.one c t') s r') (hr' : Stops c r') : t' = t ∧ r' = r :=
  h.isDetermined.isOnly hr t' r' h' hr'

/-- The same of types that are all there is. -/
theorem unique_whole {s : List TypeToken} {t t' : TypeTree} (h : Reads (.one c t) s [])
    (h' : Reads (.one c t') s []) : t' = t :=
  (h.unique (fun x hx => by cases hx) h' (fun x hx => by cases hx)).1

end Reads

end ApiTypings
