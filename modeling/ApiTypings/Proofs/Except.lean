import Mathlib.Data.List.Forall2
import Mathlib.Data.List.Perm.Basic
/-!
# Computations that can fail

A sequence of computations succeeds exactly if each one does with the value of those before it.
These lemmas take such a sequence apart step by step, so that no proof has to go through the ways in
which it can stop early.
-/

namespace ApiTypings

variable {ε α β : Type}

/-- Two steps succeed exactly if both do. -/
theorem bind_eq_ok_iff {x : Except ε α} {f : α → Except ε β} {b : β} :
    x >>= f = .ok b ↔ ∃ a, x = .ok a ∧ f a = .ok b := by
  cases x with
  | error e => exact ⟨nofun, fun ⟨a, ha, _⟩ => nomatch ha⟩
  | ok a =>
    constructor
    · exact fun h => ⟨a, rfl, h⟩
    · rintro ⟨a', ha, h⟩
      cases ha
      exact h

/-- Two steps fail exactly if the first does, or the second after the first. -/
theorem bind_eq_error_iff {x : Except ε α} {f : α → Except ε β} {e : ε} :
    x >>= f = .error e ↔ x = .error e ∨ ∃ a, x = .ok a ∧ f a = .error e := by
  cases x with
  | error e' =>
    constructor
    · exact fun h => .inl (by cases h; rfl)
    · rintro (h | ⟨a, ha, _⟩)
      · cases h
        rfl
      · cases ha
  | ok a =>
    constructor
    · exact fun h => .inr ⟨a, rfl, h⟩
    · rintro (h | ⟨a', ha, h⟩)
      · cases h
      · cases ha
        exact h

theorem map_eq_ok_iff {x : Except ε α} {f : α → β} {b : β} :
    x.map f = .ok b ↔ ∃ a, x = .ok a ∧ f a = b := by
  cases x <;> simp [Except.map]

theorem map_eq_error_iff {x : Except ε α} {f : α → β} {e : ε} :
    x.map f = .error e ↔ x = .error e := by
  cases x <;> simp [Except.map]

theorem mapError_eq_ok_iff {ε' : Type} {x : Except ε α} {f : ε → ε'} {a : α} :
    x.mapError f = .ok a ↔ x = .ok a := by
  cases x <;> simp [Except.mapError]

theorem mapError_eq_error_iff {ε' : Type} {x : Except ε α} {f : ε → ε'} {e : ε'} :
    x.mapError f = .error e ↔ ∃ e', x = .error e' ∧ f e' = e := by
  cases x <;> simp [Except.mapError]

/-- Errors of two steps can be changed in each step. -/
theorem mapError_bind {ε' : Type} {x : Except ε α} {f : α → Except ε β} {g : ε → ε'} :
    (x >>= f).mapError g = x.mapError g >>= fun a => (f a).mapError g := by
  cases x <;> rfl

/-- Going through a list succeeds exactly if every element does. -/
theorem mapM_eq_ok_iff {f : α → Except ε β} {xs : List α} {ys : List β} :
    xs.mapM f = .ok ys ↔ List.Forall₂ (fun x y => f x = .ok y) xs ys := by
  induction xs generalizing ys with
  | nil =>
    rw [List.mapM_nil, List.forall₂_nil_left_iff]
    exact ⟨fun h => by cases h; rfl, fun h => by cases h; rfl⟩
  | cons x xs ih =>
    rw [List.mapM_cons, bind_eq_ok_iff, List.forall₂_cons_left_iff]
    simp only [bind_eq_ok_iff, ih]
    constructor
    · rintro ⟨y, hy, ys', hys, h⟩
      cases h
      exact ⟨y, ys', hy, hys, rfl⟩
    · rintro ⟨y, ys', hy, hys, rfl⟩
      exact ⟨y, hy, ys', hys, rfl⟩

/-- In another order a list comes to the same values in another order. -/
theorem exists_mapM_of_perm {f : α → Except ε β} {xs xs' : List α} {ys : List β}
    (h : xs.Perm xs') (hys : xs.mapM f = .ok ys) : ∃ ys', xs'.mapM f = .ok ys' ∧ ys.Perm ys' := by
  obtain ⟨ys', hys', hperm⟩ := List.perm_comp_forall₂ h.symm (mapM_eq_ok_iff.1 hys)
  exact ⟨ys', mapM_eq_ok_iff.2 hys', hperm.symm⟩

/-! ### Success and failure -/

/-- A computation fails exactly if it does not succeed. -/
theorem exists_error_iff {x : Except ε α} : (∃ e, x = .error e) ↔ ¬∃ a, x = .ok a := by
  cases x with
  | error e => exact ⟨fun _ ⟨_, ha⟩ => (by cases ha), fun _ => ⟨e, rfl⟩⟩
  | ok a => exact ⟨fun ⟨_, he⟩ => (by cases he), fun h => absurd ⟨a, rfl⟩ h⟩

/-- Two steps can be taken exactly if the first can, and the second after it. -/
theorem exists_bind_eq_ok_iff {x : Except ε α} {f : α → Except ε β} :
    (∃ b, x >>= f = .ok b) ↔ ∃ a, x = .ok a ∧ ∃ b, f a = .ok b := by
  simp only [bind_eq_ok_iff]
  constructor
  · rintro ⟨b, a, ha, hb⟩
    exact ⟨a, ha, b, hb⟩
  · rintro ⟨a, ha, b, hb⟩
    exact ⟨b, a, ha, hb⟩

theorem exists_pure_eq_ok_iff {a : α} : (∃ b, (pure a : Except ε α) = .ok b) ↔ True :=
  ⟨fun _ => trivial, fun _ => ⟨a, rfl⟩⟩

/-- A list can be gone through exactly if every element can. -/
theorem exists_mapM_eq_ok_iff {f : α → Except ε β} {xs : List α} :
    (∃ ys, xs.mapM f = .ok ys) ↔ ∀ x ∈ xs, ∃ y, f x = .ok y := by
  induction xs with
  | nil => exact ⟨fun _ _ hx => absurd hx List.not_mem_nil, fun _ => ⟨[], rfl⟩⟩
  | cons x xs ih =>
    rw [List.mapM_cons, List.forall_mem_cons, ← ih]
    simp only [exists_bind_eq_ok_iff, exists_pure_eq_ok_iff, and_true, exists_and_right]

/-- What is in the lists that elements come to is in the list of one of them. -/
theorem mem_flatten_of_mapM {f : α → Except ε (List β)} {xs : List α} {yss : List (List β)}
    (h : xs.mapM f = .ok yss) {y : β} :
    y ∈ yss.flatten ↔ ∃ x ∈ xs, ∃ ys, f x = .ok ys ∧ y ∈ ys := by
  have hboth := mapM_eq_ok_iff.1 h
  clear h
  induction hboth with
  | nil => simp
  | @cons x ys xs yss hx _ ih =>
    rw [List.flatten_cons, List.mem_append, List.exists_mem_cons_iff, hx]
    exact or_congr (by simp) ih

/-! ### What is known of a computation -/

theorem forall_mem_none {P : α → Prop} : ∀ a ∈ (none : Option α), P a :=
  fun a ha => absurd ha (Option.not_mem_none a)

section

variable {P : α → Prop} {Q : β → Prop} {E : ε → Prop} {x : Except ε α} {f : α → Except ε β}

/-- If the computation succeeds, `P` holds of what it comes to. -/
def Gives (x : Except ε α) (P : α → Prop) : Prop :=
  ∀ a, x = .ok a → P a

theorem gives_ok {a : α} (h : P a) : Gives (.ok a : Except ε α) P := by
  intro b hb
  cases hb
  exact h

theorem gives_error (e : ε) : Gives (.error e) P := by
  intro a ha
  cases ha

theorem Gives.bind (hx : Gives x P) (hf : ∀ a, P a → Gives (f a) Q) : Gives (x >>= f) Q := by
  intro b hb
  obtain ⟨a, ha, hb⟩ := bind_eq_ok_iff.1 hb
  exact hf a (hx a ha) b hb

/-- Of a first step nothing may be known. -/
theorem Gives.of_bind (hf : ∀ a, Gives (f a) Q) : Gives (x >>= f) Q :=
  Gives.bind (fun _ _ => trivial) fun a (_ : True) => hf a

theorem gives_throw_bind (e : ε) : Gives (throw e >>= f) Q := by
  intro b hb
  cases hb

theorem Gives.mapM {xs : List α} (h : ∀ a ∈ xs, Gives (f a) Q) :
    Gives (xs.mapM f) fun ys => ∀ y ∈ ys, Q y := by
  intro ys hys
  have hboth := mapM_eq_ok_iff.1 hys
  clear hys
  induction hboth with
  | nil => exact List.forall_mem_nil _
  | cons hy _ ih =>
    obtain ⟨hfirst, hrest⟩ := List.forall_mem_cons.1 h
    exact List.forall_mem_cons.2 ⟨hfirst _ hy, ih hrest⟩

theorem Gives.optionMapM {a? : Option α} (h : ∀ a ∈ a?, Gives (f a) Q) :
    Gives (a?.mapM f) fun b? => ∀ b ∈ b?, Q b := by
  cases a? with
  | none => exact gives_ok forall_mem_none
  | some a =>
    refine (h a rfl).bind fun b hb => gives_ok fun b' hb' => ?_
    exact Option.mem_some_iff.1 hb' ▸ hb

/-- What every step keeps holds at the end if it holds at the start. -/
theorem Gives.foldlM {xs : List β} {g : α → β → Except ε α} {a : α} (ha : P a)
    (h : ∀ b ∈ xs, ∀ a, P a → Gives (g a b) P) : Gives (xs.foldlM g a) P := by
  induction xs generalizing a with
  | nil => exact gives_ok ha
  | cons b xs ih =>
    obtain ⟨hfirst, hrest⟩ := List.forall_mem_cons.1 h
    rw [List.foldlM_cons]
    exact (hfirst a ha).bind fun a' ha' => ih ha' hrest

/-- If the computation fails, `E` holds of the error. -/
def FailsWith (x : Except ε α) (E : ε → Prop) : Prop :=
  ∀ e, x = .error e → E e

theorem failsWith_ok (a : α) : FailsWith (.ok a : Except ε α) E := by
  intro e he
  cases he

theorem failsWith_error {e : ε} (h : E e) : FailsWith (.error e : Except ε α) E := by
  intro e' he'
  cases he'
  exact h

theorem FailsWith.bind (hx : FailsWith x E) (hf : ∀ a, x = .ok a → FailsWith (f a) E) :
    FailsWith (x >>= f) E := by
  intro e he
  rcases bind_eq_error_iff.1 he with he | ⟨a, ha, he⟩
  · exact hx e he
  · exact hf a ha e he

theorem FailsWith.imp {E' : ε → Prop} (hx : FailsWith x E) (h : ∀ e, E e → E' e) :
    FailsWith x E' :=
  fun e he => h e (hx e he)

/-- A change that leaves the errors alone that can occur changes nothing. -/
theorem FailsWith.mapError_eq {g : ε → ε} (hx : FailsWith x fun e => g e = e) :
    x.mapError g = x := by
  cases x with
  | ok a => rfl
  | error e => exact congrArg Except.error (hx e rfl)

theorem FailsWith.map (hx : FailsWith x E) (g : α → β) : FailsWith (x.map g) E :=
  fun e he => hx e (map_eq_error_iff.1 he)

theorem FailsWith.mapM {xs : List α} (h : ∀ a ∈ xs, FailsWith (f a) E) :
    FailsWith (xs.mapM f) E := by
  induction xs with
  | nil => exact failsWith_ok _
  | cons a xs ih =>
    obtain ⟨hfirst, hrest⟩ := List.forall_mem_cons.1 h
    rw [List.mapM_cons]
    exact hfirst.bind fun _ _ => (ih hrest).bind fun _ _ => failsWith_ok _

theorem FailsWith.optionMapM {a? : Option α} (h : ∀ a ∈ a?, FailsWith (f a) E) :
    FailsWith (a?.mapM f) E := by
  cases a? with
  | none => exact failsWith_ok _
  | some a => exact (h a rfl).bind fun _ _ => failsWith_ok _

end

/-! ### Computations that come to the same -/

/-- Two computations fail alike or come to values that look the same, if their first steps do and
what follows cannot tell such values apart. -/
theorem map_bind_congr {γ δ α' β' : Type} {x : Except ε α} {y : Except ε α'}
    {f : α → Except ε β} {g : α' → Except ε β'} {v : α → γ} {v' : α' → γ} {w : β → δ} {w' : β' → δ}
    (hxy : x.map v = y.map v') (h : ∀ a b, v a = v' b → (f a).map w = (g b).map w') :
    (x >>= f).map w = (y >>= g).map w' := by
  cases x with
  | error e =>
    have hy : y = .error e := map_eq_error_iff.1 hxy.symm
    rw [hy]
    rfl
  | ok a =>
    obtain ⟨b, rfl, hb⟩ := map_eq_ok_iff.1 hxy.symm
    exact h a b hb.symm

/-- The same for two computations that share their first step. -/
theorem map_bind_congr_right {δ β' : Type} {x : Except ε α} {f : α → Except ε β}
    {g : α → Except ε β'} {w : β → δ} {w' : β' → δ} (h : ∀ a, (f a).map w = (g a).map w') :
    (x >>= f).map w = (x >>= g).map w' := by
  cases x with
  | error e => rfl
  | ok a => exact h a

/-- The same for going through a list. -/
theorem map_mapM_congr {γ δ β' : Type} {f : γ → Except ε β} {g : γ → Except ε β'} {w : β → δ}
    {w' : β' → δ} {xs : List γ} (h : ∀ x ∈ xs, (f x).map w = (g x).map w') :
    (xs.mapM f).map (List.map w) = (xs.mapM g).map (List.map w') := by
  induction xs with
  | nil => rfl
  | cons x xs ih =>
    obtain ⟨hx, hxs⟩ := List.forall_mem_cons.1 h
    rw [List.mapM_cons, List.mapM_cons]
    refine map_bind_congr hx fun a b hab => map_bind_congr (ih hxs) fun as bs habs => ?_
    exact congrArg Except.ok (congrArg₂ List.cons hab habs)

/-- What is made of each element of two lists is made of each element of both together. -/
theorem map_bind_append {x y : Except ε (List α)} {x' y' : Except ε (List β)} {f : α → β}
    (hx : x.map (List.map f) = x') (hy : y.map (List.map f) = y') :
    (do return (← x) ++ (← y) : Except ε (List α)).map (List.map f) =
      do return (← x') ++ (← y') := by
  subst hx hy
  cases x with
  | error e => rfl
  | ok as =>
    cases y with
    | error e => rfl
    | ok bs => exact congrArg Except.ok List.map_append

/-! ### How a computation ends -/

/-- How a computation ends: it succeeds, or it fails with an error. -/
def outcome (x : Except ε α) : Except ε Unit :=
  x.map fun _ => ()

@[simp]
theorem outcome_map (x : Except ε α) (f : α → β) : outcome (x.map f) = outcome x := by
  cases x <;> rfl

@[simp]
theorem outcome_bind_pure (x : Except ε α) (f : α → β) :
    outcome (x >>= fun a => pure (f a)) = outcome x := by
  cases x <;> rfl

/-- Computations that come to the same end alike. -/
theorem outcome_congr {γ : Type} {x : Except ε α} {y : Except ε β} {v : α → γ} {w : β → γ}
    (h : x.map v = y.map w) : outcome x = outcome y := by
  rw [← outcome_map x v, h, outcome_map]

/-- How two steps end depends on the first one only as far as the second one looks at it. -/
theorem outcome_bind {γ : Type} {x : Except ε α} {f : α → Except ε β} (v : α → γ)
    {g : γ → Except ε Unit} (h : ∀ a, outcome (f a) = g (v a)) :
    outcome (x >>= f) = x.map v >>= g := by
  cases x with
  | error e => rfl
  | ok a => exact h a

/-- How it ends to go through a list depends on how each step ends. -/
theorem outcome_mapM {γ : Type} (f : γ → Except ε β) (xs : List γ) :
    outcome (xs.mapM f) = forM xs fun x => outcome (f x) := by
  induction xs with
  | nil => rfl
  | cons x xs ih =>
    rw [List.mapM_cons, List.forM_cons, ← ih]
    exact outcome_bind (fun _ => ()) fun y => outcome_bind_pure _ _

/-! ### The first that succeeds -/

/-- In a search the first element comes before the others. -/
theorem findSome?_cons_eq_or {f : α → Option β} {x : α} {xs : List α} :
    (x :: xs).findSome? f = (f x <|> xs.findSome? f) := by
  rw [List.findSome?_cons]
  cases f x <;> rfl

/-! ### Two ways through a list -/

/-- Elements that are replaced by ones for which the same is done make no difference. -/
theorem mapM_map_eq {m : Type → Type} [Monad m] [LawfulMonad m] {f : α → α} {g : α → m β}
    {xs : List α} (h : ∀ x ∈ xs, g (f x) = g x) : (xs.map f).mapM g = xs.mapM g := by
  induction xs with
  | nil => rfl
  | cons x xs ih =>
    rw [List.map_cons, List.mapM_cons, List.mapM_cons, h x (List.mem_cons_self ..),
      ih fun y hy => h y (List.mem_cons_of_mem _ hy)]

end ApiTypings
