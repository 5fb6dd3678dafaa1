import ApiTypings.Proofs.Aliases
import ApiTypings.Proofs.Identifiers
import ApiTypings.Proofs.PrintedTypes
/-!
# Parameters and keys as they are written

The name of a parameter and the key of a member have to stand in the text as they are: neither can
be exported under its own name. Main statement (`writtenNames_wellFormed`):

* The name of a parameter that has a name at all is an identifier and no reserved word. A name that
  is such an identifier itself is left as it is.
* The key of a member is its name, if this is an identifier, or a quoted text from which the name
  can be read back. So members with different names have different keys.

**Quoting.** A text is quoted by two replacements one after the other. They give one backslash to
each backslash and to each double quote and not more (`escapeQuotes_cons_of_special`), since the
first one does not see the backslashes that the second one adds. What may stand between the quotes
(`Escaped`) and how it is read (`undoEscapes`) are said without the replacements, which write the
only text of this kind that is read as the name (`escaped_and_undoEscapes_iff`).

For a rendering this says something of every parameter of a document
(`Renderer.parameters_of_render`) and of the members of every object that a type is lowered to
(`ApiType.keys_of_lowerObject`).
-/

namespace ApiTypings

variable {name : String}

/-! ### Parameters -/

theorem escape_eq_empty_iff : escape name = "" ↔ name = "" := by
  cases h : needsEscape name with
  | true =>
    rw [escape_of_needsEscape h]
    constructor
    · intro hempty
      have hchars := congrArg String.toList hempty
      simp at hchars
    · rintro rfl
      exact absurd h (by decide)
  | false => rw [escape_of_not_needsEscape h]

theorem cleanedName_eq_empty_iff : cleanedName name = "" ↔ name = "" := by
  rw [← String.toList_eq_nil_iff, ← String.toList_eq_nil_iff (b := name), cleanedName,
    String.toList_ofList, List.map_eq_nil_iff]

/-- Only a parameter without a name is written without one. -/
theorem parameterName_eq_empty_iff : parameterName name = "" ↔ name = "" := by
  unfold parameterName
  split
  · exact escape_eq_empty_iff
  · rw [escape_eq_empty_iff, cleanedName_eq_empty_iff]

/-- What is written for a parameter can be declared. -/
theorem needsEscape_parameterName (name : String) : needsEscape (parameterName name) = false := by
  rw [parameterName_eq_escape]
  exact needsEscape_escape (identifierOf name)

theorem isReserved_parameterName (name : String) : isReserved (parameterName name) = false :=
  (Bool.or_eq_false_iff.1 (needsEscape_parameterName name)).1

/-- **The name of a parameter is an identifier** if there is a name. -/
theorem isIdentifier_parameterName_iff :
    isIdentifier (parameterName name) = true ↔ name ≠ "" := by
  have hdigit : startsWithDigit (parameterName name) = false :=
    (Bool.or_eq_false_iff.1 (needsEscape_parameterName name)).2
  rw [isIdentifier_iff, Ne, parameterName_eq_empty_iff]
  exact and_iff_left ⟨hdigit, isIdentifierRest_of_mem_parameterName name⟩

/-- What can be the name of a parameter is left as it is. -/
theorem parameterName_eq_self (hidentifier : isIdentifier name = true)
    (hreserved : isReserved name = false) : parameterName name = name := by
  have hdigit : startsWithDigit name = false := (isIdentifier_iff.1 hidentifier).2.1
  have hdeclared : needsEscape name = false := Bool.or_eq_false_iff.2 ⟨hreserved, hdigit⟩
  rw [parameterName, if_pos hidentifier, escape_of_not_needsEscape hdeclared]

/-! ### Escapes -/

/-- Every backslash and every double quote of the text is in an escape, which is a backslash and one
of these two characters after it. -/
inductive Escaped : List Char → Prop
  | nil : Escaped []
  | plain {c : Char} {cs : List Char} (hslash : c ≠ '\\') (hquote : c ≠ '"') (h : Escaped cs) :
      Escaped (c :: cs)
  | escape {c : Char} {cs : List Char} (hc : c = '\\' ∨ c = '"') (h : Escaped cs) :
      Escaped ('\\' :: c :: cs)

/-- The text that is meant: of every escape only the second character is. -/
def undoEscapes : List Char → List Char
  | '\\' :: c :: cs => c :: undoEscapes cs
  | c :: cs => c :: undoEscapes cs
  | [] => []

section

variable {c : Char} {cs inner : List Char}

/-- A backslash is seen by the first replacement only, a double quote by the second one only. -/
theorem escapeQuotes_cons_of_special (hc : c = '\\' ∨ c = '"') (cs : List Char) :
    escapeQuotes (c :: cs) = '\\' :: c :: escapeQuotes cs := by
  rcases hc with rfl | rfl
  · simp [escapeQuotes, replaceChar]
  · simp [escapeQuotes, replaceChar]

theorem escapeQuotes_cons_of_plain (hslash : c ≠ '\\') (hquote : c ≠ '"') (cs : List Char) :
    escapeQuotes (c :: cs) = c :: escapeQuotes cs := by
  simp [escapeQuotes, replaceChar, hslash, hquote]

theorem undoEscapes_escape (c : Char) (cs : List Char) :
    undoEscapes ('\\' :: c :: cs) = c :: undoEscapes cs :=
  rfl

theorem undoEscapes_plain (hslash : c ≠ '\\') (cs : List Char) :
    undoEscapes (c :: cs) = c :: undoEscapes cs := by
  cases cs <;> simp [undoEscapes, hslash]

/-- The replacements leave no backslash and no double quote outside of an escape. -/
theorem escaped_escapeQuotes (cs : List Char) : Escaped (escapeQuotes cs) := by
  -- A backslash or a double quote is written as an escape, and anything else as it is.
  induction cs with
  | nil => exact .nil
  | cons c cs ih =>
    by_cases hc : c = '\\' ∨ c = '"'
    · rw [escapeQuotes_cons_of_special hc]
      exact .escape hc ih
    · obtain ⟨hslash, hquote⟩ := not_or.1 hc
      rw [escapeQuotes_cons_of_plain hslash hquote]
      exact .plain hslash hquote ih

/-- What the replacements make of a text is read back as this text. -/
theorem undoEscapes_escapeQuotes (cs : List Char) : undoEscapes (escapeQuotes cs) = cs := by
  induction cs with
  | nil => rfl
  | cons c cs ih =>
    by_cases hc : c = '\\' ∨ c = '"'
    · rw [escapeQuotes_cons_of_special hc, undoEscapes_escape, ih]
    · obtain ⟨hslash, hquote⟩ := not_or.1 hc
      rw [escapeQuotes_cons_of_plain hslash hquote, undoEscapes_plain hslash, ih]

/-- The other way round, an escaped text is what the replacements make of the text that is meant. -/
theorem Escaped.escapeQuotes_undoEscapes (h : Escaped inner) :
    escapeQuotes (undoEscapes inner) = inner := by
  induction h with
  | nil => rfl
  | plain hslash hquote _ ih =>
    rw [undoEscapes_plain hslash, escapeQuotes_cons_of_plain hslash hquote, ih]
  | escape hc _ ih => rw [undoEscapes_escape, escapeQuotes_cons_of_special hc, ih]

/-- **There is one way to escape a text**, and it is that of the two replacements. -/
theorem escaped_and_undoEscapes_iff :
    Escaped inner ∧ undoEscapes inner = cs ↔ inner = escapeQuotes cs := by
  constructor
  · rintro ⟨hescaped, rfl⟩
    exact hescaped.escapeQuotes_undoEscapes.symm
  · rintro rfl
    exact ⟨escaped_escapeQuotes cs, undoEscapes_escapeQuotes cs⟩

instance : DecidablePred Escaped := fun inner =>
  decidable_of_iff (inner = escapeQuotes (undoEscapes inner)) <| by
    rw [← escaped_and_undoEscapes_iff, and_iff_left rfl]

/-- The other order is wrong: the backslash that a double quote gets is then replaced itself, and
the quote ends the text. -/
example : ¬Escaped (replaceChar '\\' ['\\', '\\'] (replaceChar '"' ['\\', '"'] ['"'])) := by
  decide

end

/-! ### Keys -/

theorem memberKey_of_isIdentifier (h : isIdentifier name = true) : memberKey name = name :=
  if_pos h

/-- The key of a name that is no identifier: the name between quotes, with its escapes. -/
theorem memberKey_of_not_isIdentifier (h : isIdentifier name = false) :
    memberKey name = "\"" ++ String.ofList (escapeQuotes name.toList) ++ "\"" := by
  rw [memberKey, if_neg (Bool.eq_false_iff.1 h), ← String.toList_inj]
  simp

/-- **A key is an identifier** only if the name is one: no identifier has a quote in it. -/
theorem isIdentifier_memberKey (name : String) :
    isIdentifier (memberKey name) = isIdentifier name := by
  cases h : isIdentifier name with
  | true => rw [memberKey_of_isIdentifier h, h]
  | false =>
    have hquote : '"' ∈ (memberKey name).toList := by simp [memberKey_of_not_isIdentifier h]
    rw [Bool.eq_false_iff]
    intro hkey
    exact absurd ((isIdentifier_iff.1 hkey).2.2 _ hquote) (by decide)

/-- **Different names have different keys.** -/
theorem memberKey_injective : Function.Injective memberKey := by
  intro a b h
  have hkind : isIdentifier a = isIdentifier b := by
    rw [← isIdentifier_memberKey a, h, isIdentifier_memberKey]
  cases ha : isIdentifier a with
  | true =>
    rwa [memberKey_of_isIdentifier ha, memberKey_of_isIdentifier (hkind ▸ ha)] at h
  | false =>
    rw [memberKey_of_not_isIdentifier ha, memberKey_of_not_isIdentifier (hkind ▸ ha)] at h
    have hescapes : escapeQuotes a.toList = escapeQuotes b.toList := by
      simpa [← String.toList_inj] using h
    have hchars : a.toList = b.toList := by
      rw [← undoEscapes_escapeQuotes a.toList, hescapes, undoEscapes_escapeQuotes]
    exact String.toList_inj.1 hchars

/-- **Parameters and keys are written properly.** The name of a parameter, unless it is empty, is
written as an identifier that is no reserved word, and as it is exactly if it is one itself. The key
of a member is its name, if this is an identifier. If it is not, the key is a text between double
quotes that has its own double quotes and backslashes escaped, and that reads as the name if the
escapes are undone. Different names have different keys. -/
theorem writtenNames_wellFormed :
    (∀ name, name ≠ "" →
      isIdentifier (parameterName name) = true ∧ isReserved (parameterName name) = false ∧
        (parameterName name = name ↔ isIdentifier name = true ∧ isReserved name = false)) ∧
    (∀ name, (isIdentifier name = true ∧ memberKey name = name) ∨
      (isIdentifier name = false ∧ ∃ inner, memberKey name = "\"" ++ inner ++ "\"" ∧
        Escaped inner.toList ∧ String.ofList (undoEscapes inner.toList) = name)) ∧
    ∀ a b, a ≠ b → memberKey a ≠ memberKey b := by
  refine ⟨fun name hname => ?_, fun name => ?_, fun a b hne => memberKey_injective.ne hne⟩
  · have hidentifier := isIdentifier_parameterName_iff.2 hname
    have hreserved := isReserved_parameterName name
    refine ⟨hidentifier, hreserved, fun hself => ?_, fun h => parameterName_eq_self h.1 h.2⟩
    rw [hself] at hidentifier hreserved
    exact ⟨hidentifier, hreserved⟩
  · cases h : isIdentifier name with
    | true => exact .inl ⟨rfl, memberKey_of_isIdentifier h⟩
    | false =>
      refine .inr ⟨rfl, String.ofList (escapeQuotes name.toList),
        memberKey_of_not_isIdentifier h, ?_⟩
      rw [String.toList_ofList, undoEscapes_escapeQuotes, String.ofList_toList]
      exact ⟨escaped_escapeQuotes name.toList, rfl⟩

/-- A name with much that an identifier must not have: it starts with a digit, and a letter that is
not ASCII, a double quote and a backslash follow. Without its backslash it has another key. -/
theorem writtenNames_wellFormed_mixed :
    "3ä\"\\" ≠ "" ∧ parameterName "3ä\"\\" = "_3___" ∧
    isIdentifier (parameterName "3ä\"\\") = true ∧ isReserved (parameterName "3ä\"\\") = false ∧
    (∃ inner, memberKey "3ä\"\\" = "\"" ++ inner ++ "\"" ∧ Escaped inner.toList ∧
      String.ofList (undoEscapes inner.toList) = "3ä\"\\") ∧
    memberKey "3ä\"\\" = "\"3ä\\\"\\\\\"" ∧ memberKey "3ä\"\\" ≠ memberKey "3ä\"" := by
  have hname : "3ä\"\\" ≠ "" := by decide
  have hnot : isIdentifier "3ä\"\\" = false := by decide +kernel
  obtain ⟨hidentifier, hreserved, -⟩ := writtenNames_wellFormed.1 "3ä\"\\" hname
  refine ⟨hname, by decide +kernel, hidentifier, hreserved, ?_, by decide +kernel,
    writtenNames_wellFormed.2.2 _ _ (by decide)⟩
  rcases writtenNames_wellFormed.2.1 "3ä\"\\" with ⟨hyes, -⟩ | ⟨-, hquoted⟩
  · rw [hnot] at hyes
    cases hyes
  · exact hquoted

/-! ### In a rendering -/

/-- A constructor has a parameter of its own, and all others are named after what the schema has. -/
theorem exists_parameterName_of_mem_parameterLists {options : RenderOptions}
    {namespaces : List Namespace} {state : RendererState} {document : Document}
    (h : (declareNamespaces options namespaces state).result = .ok document) :
    ∀ ps ∈ document.parameterLists, ∀ p ∈ ps, ∃ x, p.name = parameterName x := by
  intro ps hps p hp
  have hnamed : NamedInside namespaces ps := namedInside_of_mem_parameterLists h ps hps
  rcases hnamed with ⟨type, rfl⟩ | ⟨ns, -, q, -, f, -, kept, -, hkept, -⟩
  · have harg : "arg" = parameterName "arg" := by decide +kernel
    rw [List.mem_singleton.1 hp]
    exact ⟨"arg", harg⟩
  · obtain ⟨x, -, hx⟩ := exists_right_of_mem hkept hp
    exact ⟨x, hx⟩

/-- **Every parameter of a rendered document** that has a name at all has an identifier for it that
is no reserved word: in the declarations of functions, in methods, in calls and in arrow types, at
any depth. -/
theorem Renderer.parameters_of_render {r : Renderer} {namespaces : List Namespace} {text : String}
    (h : (r.render namespaces).text = .ok text) :
    ∃ document : Document,
      (declareNamespaces r.options namespaces r.state).result = .ok document ∧
        text = document.text r.options.indent ∧
        ∀ ps ∈ document.parameterLists, ∀ p ∈ ps, p.name ≠ "" →
          isIdentifier p.name = true ∧ isReserved p.name = false := by
  obtain ⟨document, hdocument, rfl⟩ := map_eq_ok_iff.1 h
  refine ⟨document, hdocument, rfl, fun ps hps p hp hname => ?_⟩
  obtain ⟨x, hx⟩ := exists_parameterName_of_mem_parameterLists hdocument ps hps p hp
  -- The name in the schema is not empty either.
  rw [hx] at hname ⊢
  have hne : x ≠ "" := mt parameterName_eq_empty_iff.2 hname
  exact ⟨isIdentifier_parameterName_iff.2 hne, isReserved_parameterName x⟩

/-- The key of a member of an object, if it has one. -/
def ObjectMember.key? {τ : Type} : ObjectMember τ → Option String
  | property _ key _ _ => some key
  | method _ key _ _ => some key
  | call _ _ => none
  | index _ => none

namespace ApiType

variable {scope : List String} {path : String}

/-- A property is written as one member, or as one for each of its overloads, under the key of its
name. -/
theorem key?_of_lowerMember {p : Property ApiType} {ms : List (ObjectMember TypeExpr)}
    (h : lowerMember scope path p = .ok ms) :
    ms ≠ [] ∧ ∀ m ∈ ms, m.key? = some (memberKey p.name) := by
  rcases lowerMember_cases scope path p with ⟨-, hlower⟩ | ⟨-, -, c, -, hlower⟩
  · obtain ⟨e, -, rfl⟩ := map_eq_ok_iff.1 (hlower.symm.trans h)
    exact ⟨List.cons_ne_nil _ _, List.forall_mem_singleton.2 rfl⟩
  · obtain ⟨signatures, hsignatures, hms⟩ := bind_eq_ok_iff.1 (hlower.symm.trans h)
    have hoverloads := mapM_eq_ok_iff.1 hms
    constructor
    · rintro rfl
      cases hoverloads
      exact Callable.loweredSignatures_ne_nil hsignatures rfl
    · intro m hm
      obtain ⟨s, -, hsm⟩ := exists_left_of_mem hoverloads hm
      obtain ⟨⟨ps, returns⟩, -, hsm⟩ := bind_eq_ok_iff.1 hsm
      cases hsm
      rfl

theorem key?_of_lowerIndex {further : Option ApiType} {members : List (ObjectMember TypeExpr)}
    (h : lowerIndex scope path further = .ok members) : ∀ m ∈ members, m.key? = none := by
  cases further with
  | none =>
    cases h
    exact List.forall_mem_nil _
  | some t =>
    obtain ⟨e, -, hmembers⟩ := bind_eq_ok_iff.1 h
    cases hmembers
    exact List.forall_mem_singleton.2 rfl

/-- **The members of an object tell its properties apart**: there is one under the key of a name
exactly if there is a visible property of this name. -/
theorem keys_of_lowerObject {properties : List (Property ApiType)} {further : Option ApiType}
    {members : List (ObjectMember TypeExpr)}
    (h : lowerObject scope path properties further = .ok members) (name : String) :
    (∃ m ∈ members, m.key? = some (memberKey name)) ↔
      ∃ p ∈ Property.visible properties, p.name = name := by
  obtain ⟨own, hown, hmembers⟩ := bind_eq_ok_iff.1 h
  obtain ⟨indexMembers, hindex, hmembers⟩ := bind_eq_ok_iff.1 hmembers
  cases hmembers
  rw [lowerMembers_eq_mapM] at hown
  obtain ⟨groups, hgroups, rfl⟩ := map_eq_ok_iff.1 hown
  have hlowered := mapM_eq_ok_iff.1 hgroups
  constructor
  · rintro ⟨m, hm, hkey⟩
    rcases List.mem_append.1 hm with hm | hm
    · obtain ⟨ms, hms, hm⟩ := List.mem_flatten.1 hm
      obtain ⟨p, hp, hpms⟩ := exists_left_of_mem hlowered hms
      have hkeys : memberKey p.name = memberKey name := by
        rw [(key?_of_lowerMember hpms).2 m hm] at hkey
        exact Option.some.inj hkey
      exact ⟨p, hp, memberKey_injective hkeys⟩
    · rw [key?_of_lowerIndex hindex m hm] at hkey
      cases hkey
  · rintro ⟨p, hp, rfl⟩
    obtain ⟨ms, hms, hpms⟩ := exists_right_of_mem hlowered hp
    obtain ⟨hne, hkey⟩ := key?_of_lowerMember hpms
    obtain ⟨m, hm⟩ := List.exists_mem_of_ne_nil ms hne
    exact ⟨m, List.mem_append_left _ (List.mem_flatten.2 ⟨ms, hms, hm⟩), hkey m hm⟩

end ApiType

end ApiTypings
