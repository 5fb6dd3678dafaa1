import ApiTypings.Proofs.DeclaredNames
/-!
# Names and their aliases

A name that cannot be declared is declared under its alias, and `unescape` takes the underscore of an
alias away again. Main statement (`escape_inverts`): what is declared can always be told back to the
name that it was declared for, and a name comes back from its own declaration exactly if it is not
the alias of another one (`IsAlias`).

An alias is declared as it is, so `delete` and `_delete` are both declared as `_delete`, and what
comes back is `delete`. The alias of an alias does not exist: `__delete` comes back as it is.
-/

namespace ApiTypings

/-- The alias of a name that can only be declared under one: the name after an underscore. -/
def IsAlias (declared : String) : Prop :=
  ∃ name, declared = "_" ++ name ∧ needsEscape name = true

variable {name declared : String}

/-! ### Declaring -/

theorem escape_of_needsEscape (h : needsEscape name = true) : escape name = "_" ++ name :=
  if_pos h

theorem escape_of_not_needsEscape (h : needsEscape name = false) : escape name = name :=
  if_neg (Bool.eq_false_iff.1 h)

/-- **What is declared** needs no alias. -/
theorem needsEscape_escape (name : String) : needsEscape (escape name) = false := by
  cases h : needsEscape name with
  | true =>
    rw [escape_of_needsEscape h]
    exact needsEscape_alias name
  | false =>
    rw [escape_of_not_needsEscape h]
    exact h

theorem IsAlias.needsEscape_eq_false (h : IsAlias declared) : needsEscape declared = false := by
  obtain ⟨name, rfl, -⟩ := h
  exact needsEscape_alias name

/-! ### Reading back -/

/-- A name is not the name after an underscore. -/
theorem ne_underscore_append (name : String) : name ≠ "_" ++ name := by
  intro h
  have hlength := congrArg (fun s : String => s.toList.length) h
  simp at hlength

/-- An alias is read back as its name. -/
theorem unescape_alias (h : needsEscape name = true) : unescape ("_" ++ name) = name := by
  have hchars : ("_" ++ name).toList = '_' :: name.toList := by simp
  rw [unescape, hchars]
  simp only [String.ofList_toList, if_pos h]

/-- Anything else is read back as it is. -/
theorem unescape_of_not_isAlias (h : ¬IsAlias declared) : unescape declared = declared := by
  unfold unescape
  split
  · next rest hchars =>
    refine if_neg fun hrest => h ⟨String.ofList rest, ?_, hrest⟩
    rw [← String.toList_inj, hchars]
    simp
  · rfl

/-- **From what is declared to the name and back**: a text that needs no alias comes back. -/
theorem escape_unescape (h : needsEscape declared = false) :
    escape (unescape declared) = declared := by
  by_cases halias : IsAlias declared
  · obtain ⟨name, rfl, hname⟩ := halias
    rw [unescape_alias hname, escape_of_needsEscape hname]
  · rw [unescape_of_not_isAlias halias, escape_of_not_needsEscape h]

/-- **From a name to what is declared and back**: a name comes back unless it is an alias. -/
theorem unescape_escape_iff (name : String) :
    unescape (escape name) = name ↔ ¬IsAlias name := by
  cases h : needsEscape name with
  | true =>
    have hnot : ¬IsAlias name := fun halias => by
      rw [halias.needsEscape_eq_false] at h
      cases h
    rw [escape_of_needsEscape h, unescape_alias h]
    exact iff_of_true rfl hnot
  | false =>
    rw [escape_of_not_needsEscape h]
    refine ⟨fun hback => ?_, unescape_of_not_isAlias⟩
    rintro ⟨other, rfl, hother⟩
    rw [unescape_alias hother] at hback
    exact ne_underscore_append other hback

/-- **Escaping is inverted on what it produces.** A text that needs no alias is declared for the name
that is read back from it. What is declared for a name needs no alias, and the name is read back from
it if and only if it is not the alias of another name itself. -/
theorem escape_inverts :
    (∀ declared, needsEscape declared = false → escape (unescape declared) = declared) ∧
    ∀ name, needsEscape (escape name) = false ∧
      (unescape (escape name) = name ↔ ¬∃ rest, name = "_" ++ rest ∧ needsEscape rest = true) :=
  ⟨fun _ h => escape_unescape h, fun name => ⟨needsEscape_escape name, unescape_escape_iff name⟩⟩

/-- Reserved words, digits and underscores in front of them: of these names only `_delete` and `_3d`
are not read back, since they are aliases. -/
theorem escape_inverts_delete :
    needsEscape "_3d" = false ∧ escape (unescape "_3d") = "_3d" ∧
    needsEscape (escape "delete") = false ∧
    (["delete", "_delete", "__delete", "3d", "_3d", "_"].map fun name =>
      decide (unescape (escape name) = name)) = [true, false, true, true, false, true] ∧
    ¬∃ rest, "__delete" = "_" ++ rest ∧ needsEscape rest = true := by
  have hdigit : needsEscape "_3d" = false := by decide
  have hback : unescape (escape "__delete") = "__delete" := by decide +kernel
  exact ⟨hdigit, escape_inverts.1 _ hdigit, (escape_inverts.2 "delete").1, by decide +kernel,
    (escape_inverts.2 "__delete").2.1 hback⟩

end ApiTypings
