import ApiTypings.Text.Naming
/-!
# What identifiers are made of

A text is an identifier if it is not empty, has only the characters of identifiers and does not
start with a digit (`isIdentifier_iff`). The name of a parameter has only such characters whatever
it is made from (`isIdentifierRest_of_mem_parameterName`): a name that is no identifier is cleaned
before it is declared under an alias, and an alias adds an underscore.
-/

namespace ApiTypings

variable {c : Char} {name : String}

/-! ### Characters -/

/-- An identifier goes on with what it may start with, and with digits. -/
theorem isIdentifierRest_eq (c : Char) :
    isIdentifierRest c = (isIdentifierStart c || c.isDigit) := by
  simp only [isIdentifierRest, isIdentifierStart, Char.isAlphanum, Bool.or_assoc]

theorem isDigit_of_isAlpha (h : c.isAlpha = true) : c.isDigit = false := by
  have hletter : 65 ≤ c.toNat ∧ c.toNat ≤ 90 ∨ 97 ≤ c.toNat ∧ c.toNat ≤ 122 := by
    rcases Bool.or_eq_true_iff.1 h with hupper | hlower
    · exact .inl (of_decide_eq_true hupper)
    · obtain ⟨hfirst, hlast⟩ := Bool.and_eq_true_iff.1 hlower
      exact .inr ⟨of_decide_eq_true hfirst, of_decide_eq_true hlast⟩
  have hdigit : ¬(48 ≤ c.toNat ∧ c.toNat ≤ 57) := by omega
  rw [Bool.eq_false_iff, Ne, Char.isDigit_iff_toNat]
  exact hdigit

/-- No identifier starts with a digit. -/
theorem isDigit_of_isIdentifierStart (h : isIdentifierStart c = true) : c.isDigit = false := by
  simp only [isIdentifierStart, Bool.or_eq_true, decide_eq_true_eq] at h
  rcases h with (rfl | rfl) | halpha
  · rfl
  · rfl
  · exact isDigit_of_isAlpha halpha

theorem isIdentifierStart_iff :
    isIdentifierStart c = true ↔ c.isDigit = false ∧ isIdentifierRest c = true := by
  rw [isIdentifierRest_eq]
  constructor
  · intro h
    exact ⟨isDigit_of_isIdentifierStart h, by rw [h, Bool.true_or]⟩
  · rintro ⟨hdigit, h⟩
    rwa [hdigit, Bool.or_false] at h

/-! ### Names -/

/-- **An identifier** is a text of the characters of identifiers that starts with one of them, which
is no digit. -/
theorem isIdentifier_iff :
    isIdentifier name = true ↔
      name ≠ "" ∧ startsWithDigit name = false ∧ ∀ c ∈ name.toList, isIdentifierRest c = true := by
  rw [isIdentifier, startsWithDigit, Ne, ← String.toList_eq_nil_iff]
  cases name.toList with
  | nil => simp [isIdentifierChars]
  | cons c cs => simp [isIdentifierChars, isIdentifierStart_iff, and_assoc]

theorem isIdentifierRest_of_mem_cleanedName :
    ∀ c ∈ (cleanedName name).toList, isIdentifierRest c = true := by
  intro c hc
  rw [cleanedName, String.toList_ofList] at hc
  obtain ⟨d, -, rfl⟩ := List.mem_map.1 hc
  split
  · next halphanum => simp [isIdentifierRest, halphanum]
  · rfl

/-- An alias has one character more than its name, which is an underscore. -/
theorem isIdentifierRest_of_mem_escape (h : ∀ c ∈ name.toList, isIdentifierRest c = true) :
    ∀ c ∈ (escape name).toList, isIdentifierRest c = true := by
  unfold escape
  split
  · have hchars : ("_" ++ name).toList = '_' :: name.toList := by simp
    rw [hchars]
    exact List.forall_mem_cons.2 ⟨rfl, h⟩
  · exact h

/-- **The name of a parameter** has only the characters of identifiers. -/
theorem isIdentifierRest_of_mem_parameterName (name : String) :
    ∀ c ∈ (parameterName name).toList, isIdentifierRest c = true := by
  unfold parameterName
  split
  · next hidentifier => exact isIdentifierRest_of_mem_escape (isIdentifier_iff.1 hidentifier).2.2
  · exact isIdentifierRest_of_mem_escape isIdentifierRest_of_mem_cleanedName

end ApiTypings
