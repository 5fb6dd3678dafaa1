import ApiTypings.Declaration.Announcing
import ApiTypings.Proofs.Except
import Mathlib.Data.List.Infix
/-!
# Two runs of what announces

A computation that announces symbols is run twice, from a state in which announcements are audible
and from one in which they are muted. `Announcing.Steady` says how the two runs compare: they come
to the same result, in the same scope, and either the computation left muting alone (`none`), or
both runs end up muted or audible alike (`some muted`). There is one lemma for each way in which
computations are put together.

A run through a list goes up to the first computation that fails. `Announcing.Comes` says what it
comes to, and `Announcing.lastEffect` what is done to muting on the way.
-/

namespace ApiTypings

namespace Announcing

variable {α β : Type}

/-! ### Two runs side by side -/

/-- Whether a computation does not fail. -/
def succeeds (scope : List String) (x : Announcing α) : Bool :=
  (x ⟨scope, false⟩).result.toBool

/-- Two runs of a computation, audible and muted, compare as follows. They have the same result and
leave the scope; both set muting to what `effect` says, or leave it if it says nothing; and what the
muted one announces is the end of what the audible one does. -/
structure Steady (scope : List String) (x : Announcing α) (effect : Option Bool) : Prop where
  state_eq : ∀ m, (x ⟨scope, m⟩).state = ⟨scope, effect.getD m⟩
  result_eq : ∀ m, (x ⟨scope, m⟩).result = (x ⟨scope, false⟩).result
  suffix : (x ⟨scope, true⟩).symbols <:+ (x ⟨scope, false⟩).symbols
  silent : effect = none → (x ⟨scope, true⟩).symbols = []

variable {scope : List String} {x : Announcing α} {e : Option Bool}

theorem steady_pure (a : α) : Steady scope (pure a) none :=
  ⟨fun _ => rfl, fun _ => rfl, List.suffix_rfl, fun _ => rfl⟩

theorem steady_lift (result : Except DeclarationError α) : Steady scope (lift result) none :=
  ⟨fun _ => rfl, fun _ => rfl, List.suffix_rfl, fun _ => rfl⟩

theorem steady_announce (path : String) (kind : SymbolKind) (deprecated : Bool) :
    Steady scope (announce path kind deprecated) none :=
  ⟨fun _ => rfl, fun _ => rfl, List.nil_suffix, fun _ => rfl⟩

theorem steady_mute (muted : Bool) : Steady scope (mute muted) (some muted) :=
  ⟨fun _ => rfl, fun _ => rfl, List.suffix_rfl, nofun⟩

theorem bind_eq_of_error {f : α → Announcing β} {s : RendererState} {err : DeclarationError}
    (h : (x s).result = .error err) : (x >>= f) s = ⟨.error err, (x s).symbols, (x s).state⟩ := by
  show next (x s) f = _
  unfold next
  rw [h]

theorem bind_eq_of_ok {f : α → Announcing β} {s : RendererState} {a : α}
    (h : (x s).result = .ok a) :
    (x >>= f) s = ⟨(f a (x s).state).result, (x s).symbols ++ (f a (x s).state).symbols,
      (f a (x s).state).state⟩ := by
  show next (x s) f = _
  unfold next
  rw [h]

/-- Apart from the state, two steps fail and succeed as two computations that announce nothing. -/
theorem result_bind (x : Announcing α) (f : α → Announcing β) (s : RendererState) :
    ((x >>= f) s).result = (x s).result >>= fun a => (f a (x s).state).result := by
  cases h : (x s).result with
  | error err => rw [bind_eq_of_error h]; rfl
  | ok a => rw [bind_eq_of_ok h]; rfl

theorem result_bind_eq_ok_iff {f : α → Announcing β} {s : RendererState} {b : β} :
    ((x >>= f) s).result = .ok b ↔
      ∃ a, (x s).result = .ok a ∧ (f a (x s).state).result = .ok b := by
  rw [result_bind]
  exact bind_eq_ok_iff

theorem result_bind_eq_error_iff {f : α → Announcing β} {s : RendererState}
    {err : DeclarationError} :
    ((x >>= f) s).result = .error err ↔ (x s).result = .error err ∨
      ∃ a, (x s).result = .ok a ∧ (f a (x s).state).result = .error err := by
  rw [result_bind]
  exact bind_eq_error_iff

theorem succeeds_eq_true_iff :
    succeeds scope x = true ↔ ∃ a, (x ⟨scope, false⟩).result = .ok a := by
  unfold succeeds
  cases (x ⟨scope, false⟩).result with
  | error err => exact ⟨fun h => absurd h Bool.false_ne_true, fun ⟨a, ha⟩ => by cases ha⟩
  | ok a => exact ⟨fun _ => ⟨a, rfl⟩, fun _ => rfl⟩

theorem succeeds_eq_false_iff :
    succeeds scope x = false ↔ ∃ err, (x ⟨scope, false⟩).result = .error err := by
  unfold succeeds
  cases (x ⟨scope, false⟩).result with
  | error err => exact ⟨fun _ => ⟨err, rfl⟩, fun _ => rfl⟩
  | ok a => exact ⟨fun h => absurd h.symm Bool.false_ne_true, fun ⟨err, herr⟩ => by cases herr⟩

/-- After a failure nothing more is done. -/
theorem Steady.bind_of_error {f : α → Announcing β} (hx : Steady scope x e)
    (h : succeeds scope x = false) : Steady scope (x >>= f) e := by
  obtain ⟨err, herr⟩ := succeeds_eq_false_iff.1 h
  have hrun : ∀ m,
      (x >>= f) ⟨scope, m⟩ = ⟨.error err, (x ⟨scope, m⟩).symbols, (x ⟨scope, m⟩).state⟩ :=
    fun m => bind_eq_of_error ((hx.result_eq m).trans herr)
  constructor
  · intro m
    rw [hrun]
    exact hx.state_eq m
  · intro m
    rw [hrun, hrun]
  · rw [hrun, hrun]
    exact hx.suffix
  · intro he
    rw [hrun]
    exact hx.silent he

/-- What is done after a success has the last word on muting. -/
theorem Steady.bind_of_ok {f : α → Announcing β} {a : α} {e' : Option Bool} (hx : Steady scope x e)
    (h : (x ⟨scope, false⟩).result = .ok a) (hf : Steady scope (f a) e') :
    Steady scope (x >>= f) (e' <|> e) := by
  have hrun : ∀ m, (x >>= f) ⟨scope, m⟩ = ⟨(f a ⟨scope, e.getD m⟩).result,
      (x ⟨scope, m⟩).symbols ++ (f a ⟨scope, e.getD m⟩).symbols,
      (f a ⟨scope, e.getD m⟩).state⟩ := by
    intro m
    rw [bind_eq_of_ok ((hx.result_eq m).trans h), hx.state_eq]
  constructor
  · intro m
    rw [hrun, hf.state_eq]
    cases e' <;> rfl
  · intro m
    rw [hrun, hrun, hf.result_eq, hf.result_eq (e.getD false)]
  · rw [hrun, hrun]
    cases e with
    | some b =>
      -- Both go on alike, so only what came before can differ.
      obtain ⟨lost, hlost⟩ := hx.suffix
      exact ⟨lost, by rw [← List.append_assoc, hlost]; rfl⟩
    | none =>
      -- The muted run has announced nothing yet.
      rw [hx.silent rfl, List.nil_append]
      exact hf.suffix.trans (List.suffix_append _ _)
  · intro he
    obtain ⟨rfl, rfl⟩ : e' = none ∧ e = none := by
      cases e' <;> cases e <;> simp_all
    rw [hrun, hx.silent rfl]
    exact hf.silent rfl

theorem lift_error_bind (err : DeclarationError) (f : α → Announcing β) :
    lift (.error err) >>= f = lift (.error err) :=
  rfl

theorem lift_ok_bind (a : α) (f : α → Announcing β) : lift (.ok a) >>= f = f a :=
  rfl

theorem Steady.bind_of_succeeds {f : α → Announcing β} {a : α} {e' : Option Bool}
    (hx : Steady scope x none) (h : (x ⟨scope, false⟩).result = .ok a)
    (hf : Steady scope (f a) e') :
    Steady scope (x >>= f) e' := by
  have hboth := hx.bind_of_ok h hf
  cases e' <;> exact hboth

/-- Computations that leave muting alone can be put together. -/
theorem Steady.bind {f : α → Announcing β} (hx : Steady scope x none)
    (hf : ∀ a, Steady scope (f a) none) : Steady scope (x >>= f) none := by
  cases h : succeeds scope x with
  | false => exact hx.bind_of_error h
  | true =>
    obtain ⟨a, ha⟩ := succeeds_eq_true_iff.1 h
    exact hx.bind_of_ok ha (hf a)

/-- Reading the scope. -/
theorem Steady.scope_bind {f : List String → Announcing β} (h : Steady scope (f scope) e) :
    Steady scope (Announcing.scope >>= f) e :=
  ⟨h.state_eq, h.result_eq, h.suffix, h.silent⟩

theorem succeeds_scope_bind {f : List String → Announcing β} :
    succeeds scope (Announcing.scope >>= f) = succeeds scope (f scope) :=
  rfl

theorem result_scope_bind (f : List String → Announcing β) (s : RendererState) :
    ((Announcing.scope >>= f) s).result = (f s.scope s).result :=
  rfl

/-- **Names do not stay in scope**, whether the computation fails or not. -/
theorem Steady.withScope (h : Steady scope x e) : Steady [] (withScope scope x) e where
  state_eq := fun m => by
    show { (x ⟨scope, m⟩).state with scope := [] } = _
    rw [h.state_eq]
  result_eq := h.result_eq
  suffix := h.suffix
  silent := h.silent

/-! ### One after another -/

/-- Going through a list up to the first that is not `ok`, one comes to `x`. -/
def Comes (ok : α → Bool) (xs : List α) (x : α) : Prop :=
  ∃ done rest, xs = done ++ x :: rest ∧ ∀ y ∈ done, ok y = true

/-- What a list of computations does to muting, done in turn up to the first that is not `ok`: what
the last of them does that does something. -/
def lastEffect (ok : α → Bool) (effect : α → Option Bool) : List α → Option Bool
  | [] => none
  | x :: xs => if ok x then lastEffect ok effect xs <|> effect x else effect x

section Comes

variable {ok : α → Bool} {effect : α → Option Bool} {xs : List α}

theorem not_comes_nil {x : α} : ¬Comes ok [] x := by
  rintro ⟨done, rest, h, -⟩
  cases done <;> cases h

theorem comes_cons_iff {x y : α} :
    Comes ok (x :: xs) y ↔ y = x ∨ (ok x = true ∧ Comes ok xs y) := by
  constructor
  · rintro ⟨done, rest, h, hok⟩
    cases done with
    | nil =>
      cases h
      exact .inl rfl
    | cons z done =>
      cases h
      exact .inr ⟨hok x (List.mem_cons_self ..), done, rest, rfl, fun y hy =>
        hok y (List.mem_cons_of_mem _ hy)⟩
  · rintro (rfl | ⟨hx, done, rest, rfl, hok⟩)
    · exact ⟨[], xs, rfl, nofun⟩
    · refine ⟨x :: done, rest, rfl, fun y hy => ?_⟩
      rcases List.mem_cons.1 hy with rfl | hy
      · exact hx
      · exact hok y hy

theorem Comes.mem {x : α} (h : Comes ok xs x) : x ∈ xs := by
  obtain ⟨done, rest, rfl, -⟩ := h
  exact List.mem_append_right _ (List.mem_cons_self ..)

/-- Nothing is done to muting if nothing that one comes to does something. -/
theorem lastEffect_eq_none_iff :
    lastEffect ok effect xs = none ↔ ∀ x, Comes ok xs x → effect x = none := by
  induction xs with
  | nil => exact ⟨fun _ x hx => absurd hx not_comes_nil, fun _ => rfl⟩
  | cons x xs ih =>
    simp only [comes_cons_iff, or_imp, forall_and, forall_eq]
    rw [lastEffect]
    split_ifs with hx
    · simp only [hx, true_and]
      rw [← ih]
      cases lastEffect ok effect xs <;> simp
    · simp [hx]

/-- If what is `ok` never mutes, announcements are muted in the end if one comes to something that
mutes them. -/
theorem lastEffect_eq_some_true_iff (h : ∀ x ∈ xs, ok x = true → effect x ≠ some true) :
    lastEffect ok effect xs = some true ↔ ∃ x, Comes ok xs x ∧ effect x = some true := by
  induction xs with
  | nil => exact ⟨nofun, fun ⟨x, hx, _⟩ => absurd hx not_comes_nil⟩
  | cons x xs ih =>
    have hxs := ih fun y hy => h y (List.mem_cons_of_mem _ hy)
    simp only [comes_cons_iff, or_and_right, exists_or, exists_eq_left]
    rw [lastEffect]
    split_ifs with hx
    · -- Something that succeeds does not mute, so it must be something after it.
      have hne := h x (List.mem_cons_self ..) hx
      simp only [hx, true_and]
      rw [← hxs]
      cases lastEffect ok effect xs <;> simp [hne]
    · simp [hx]

end Comes

theorem Steady.exists_bind {f : α → Announcing β} (hx : Steady scope x e)
    (hf : ∀ a, ∃ e', Steady scope (f a) e') : ∃ e', Steady scope (x >>= f) e' := by
  cases h : succeeds scope x with
  | false => exact ⟨e, hx.bind_of_error h⟩
  | true =>
    obtain ⟨a, ha⟩ := succeeds_eq_true_iff.1 h
    obtain ⟨e', hfa⟩ := hf a
    exact ⟨_, hx.bind_of_ok ha hfa⟩

/-- What was not heard of the first of two steps is not made up for. -/
theorem Steady.length_symbols_bind_lt {f : α → Announcing β} (hx : Steady scope x e)
    (hlt : (x ⟨scope, true⟩).symbols.length < (x ⟨scope, false⟩).symbols.length)
    (hf : ∀ a, ∃ e', Steady scope (f a) e') :
    ((x >>= f) ⟨scope, true⟩).symbols.length < ((x >>= f) ⟨scope, false⟩).symbols.length := by
  cases hr : (x ⟨scope, false⟩).result with
  | error err =>
    rw [bind_eq_of_error hr, bind_eq_of_error ((hx.result_eq true).trans hr)]
    exact hlt
  | ok a =>
    obtain ⟨e', hfa⟩ := hf a
    have hle : (f a ⟨scope, e.getD true⟩).symbols.length ≤
        (f a ⟨scope, e.getD false⟩).symbols.length := by
      -- The runs differ in the second step only if the first left muting alone.
      cases e with
      | none => exact hfa.suffix.length_le
      | some b => exact le_rfl
    rw [bind_eq_of_ok hr, bind_eq_of_ok ((hx.result_eq true).trans hr), hx.state_eq, hx.state_eq,
      List.length_append, List.length_append]
    omega

/-- What is made of the value of a computation does not matter. -/
theorem Steady.bind_pure (hx : Steady scope x e) (g : α → β) :
    Steady scope (x >>= fun a => pure (g a)) e := by
  cases h : succeeds scope x with
  | false => exact hx.bind_of_error h
  | true =>
    obtain ⟨a, ha⟩ := succeeds_eq_true_iff.1 h
    exact Steady.bind_of_ok (f := fun a => pure (g a)) hx ha (steady_pure (g a))

theorem succeeds_bind_pure (g : α → β) :
    succeeds scope (x >>= fun a => pure (g a)) = succeeds scope x := by
  unfold succeeds
  cases hx : (x ⟨scope, false⟩).result with
  | error err => rw [bind_eq_of_error hx]; rfl
  | ok a => rw [bind_eq_of_ok hx]; rfl

/-- Two steps succeed if both do. The second one does so whatever the first leaves of muting. -/
theorem Steady.succeeds_bind {f : α → Announcing β} {b : Bool} (hx : Steady scope x e)
    (hf : ∀ a, ∃ e', Steady scope (f a) e') (hb : ∀ a, succeeds scope (f a) = b) :
    succeeds scope (x >>= f) = (succeeds scope x && b) := by
  unfold succeeds
  cases hr : (x ⟨scope, false⟩).result with
  | error err =>
    rw [bind_eq_of_error hr]
    rfl
  | ok a =>
    obtain ⟨e', hfa⟩ := hf a
    rw [bind_eq_of_ok hr, hx.state_eq, hfa.result_eq]
    exact hb a

section mapM

variable {γ : Type} {f : γ → Announcing β} {effect : γ → Option Bool}

/-- **A run through a list** does to muting what the computations that are come to do. -/
theorem Steady.mapM (h : ∀ x, Steady scope (f x) (effect x)) (xs : List γ) :
    Steady scope (xs.mapM f) (lastEffect (fun x => succeeds scope (f x)) effect xs) := by
  induction xs with
  | nil =>
    rw [List.mapM_nil]
    exact steady_pure []
  | cons x xs ih =>
    rw [List.mapM_cons, lastEffect]
    cases hx : succeeds scope (f x) with
    | false => exact (h x).bind_of_error hx
    | true =>
      obtain ⟨b, hb⟩ := succeeds_eq_true_iff.1 hx
      exact (h x).bind_of_ok hb (ih.bind_pure _)

theorem Steady.succeeds_mapM (h : ∀ x, Steady scope (f x) (effect x)) (xs : List γ) :
    succeeds scope (xs.mapM f) = xs.all fun x => succeeds scope (f x) := by
  induction xs with
  | nil =>
    rw [List.mapM_nil]
    rfl
  | cons x xs ih =>
    rw [List.mapM_cons, List.all_cons, ← ih]
    exact (h x).succeeds_bind (fun b => ⟨_, (Steady.mapM h xs).bind_pure _⟩)
      fun b => succeeds_bind_pure _

/-- A run through a list that leaves muting alone at every step. -/
theorem Steady.mapM_none (h : ∀ x, Steady scope (f x) none) (xs : List γ) :
    Steady scope (xs.mapM f) none := by
  have hnone : lastEffect (fun x => succeeds scope (f x)) (fun _ => none) xs = none :=
    lastEffect_eq_none_iff.2 fun _ _ => rfl
  rw [← hnone]
  exact Steady.mapM h xs

end mapM

/-! ### What the steps come to -/

section Steps

variable {m : Bool} {err : DeclarationError}

/-- Two steps that succeed do so one after the other, from audible announcements as well. -/
theorem Steady.exists_of_bind (hx : Steady scope x e) {f : α → Announcing β} {b : β}
    (h : ((x >>= f) ⟨scope, m⟩).result = .ok b) :
    ∃ a m', (x ⟨scope, false⟩).result = .ok a ∧ (f a ⟨scope, m'⟩).result = .ok b := by
  obtain ⟨a, ha, hb⟩ := result_bind_eq_ok_iff.1 h
  rw [hx.result_eq] at ha
  rw [hx.state_eq] at hb
  exact ⟨a, e.getD m, ha, hb⟩

theorem Steady.of_bind_pure (hx : Steady scope x e) {g : α → β} {b : β}
    (h : ((x >>= fun a => pure (g a)) ⟨scope, m⟩).result = .ok b) :
    ∃ a, (x ⟨scope, false⟩).result = .ok a ∧ g a = b := by
  obtain ⟨a, _, ha, hb⟩ := hx.exists_of_bind h
  exact ⟨a, ha, Except.ok.inj hb⟩

/-- If two steps fail, the first does or the second after it. -/
theorem Steady.error_of_bind (hx : Steady scope x e) {f : α → Announcing β}
    (h : ((x >>= f) ⟨scope, m⟩).result = .error err) :
    (x ⟨scope, false⟩).result = .error err ∨ ∃ a m', (f a ⟨scope, m'⟩).result = .error err := by
  rcases result_bind_eq_error_iff.1 h with h | ⟨a, -, h⟩
  · exact .inl (hx.result_eq m ▸ h)
  · exact .inr ⟨a, e.getD m, hx.state_eq m ▸ h⟩

theorem Steady.error_of_bind_pure (hx : Steady scope x e) {g : α → β}
    (h : ((x >>= fun a => pure (g a)) ⟨scope, m⟩).result = .error err) :
    (x ⟨scope, false⟩).result = .error err := by
  rcases hx.error_of_bind h with h | ⟨_, _, h⟩
  · exact h
  · cases h

/-- After some computations nothing can fail. -/
theorem error_of_lift_bind {result : Except DeclarationError α} {f : α → Announcing β}
    {s : RendererState} (h : ((lift result >>= f) s).result = .error err)
    (hf : ∀ a, ∃ b, (f a s).result = .ok b) : result = .error err := by
  rcases result_bind_eq_error_iff.1 h with h | ⟨a, -, h⟩
  · exact h
  · obtain ⟨b, hb⟩ := hf a
    cases hb.symm.trans h

variable {γ : Type} {f : γ → Announcing β} {effect : γ → Option Bool} {xs : List γ}

/-- **A list that is gone through** has every element run from the same scope. -/
theorem Steady.forall₂_of_mapM (hf : ∀ x, Steady scope (f x) (effect x)) {ys : List β}
    (h : ((xs.mapM f) ⟨scope, m⟩).result = .ok ys) :
    List.Forall₂ (fun x y => (f x ⟨scope, false⟩).result = .ok y) xs ys := by
  induction xs generalizing m ys with
  | nil =>
    rw [List.mapM_nil] at h
    cases h
    exact .nil
  | cons x xs ih =>
    rw [List.mapM_cons] at h
    obtain ⟨y, m', hy, h⟩ := (hf x).exists_of_bind h
    obtain ⟨ys', hys, rfl⟩ := (Steady.mapM hf xs).of_bind_pure h
    exact .cons hy (ih hys)

/-- If a list cannot be gone through, that is because of one of its elements. -/
theorem Steady.exists_error_of_mapM (hf : ∀ x, Steady scope (f x) (effect x))
    (h : ((xs.mapM f) ⟨scope, m⟩).result = .error err) :
    ∃ x ∈ xs, (f x ⟨scope, false⟩).result = .error err := by
  induction xs generalizing m with
  | nil =>
    rw [List.mapM_nil] at h
    cases h
  | cons x xs ih =>
    rw [List.mapM_cons] at h
    rcases (hf x).error_of_bind h with hx | ⟨_, _, h⟩
    · exact ⟨x, List.mem_cons_self .., hx⟩
    · obtain ⟨y, hy, hfails⟩ := ih ((Steady.mapM hf xs).error_of_bind_pure h)
      exact ⟨y, List.mem_cons_of_mem _ hy, hfails⟩

end Steps

end Announcing

end ApiTypings
