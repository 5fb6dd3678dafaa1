import ApiTypings.Declaration.Symbol
import ApiTypings.Proofs.Repetitions
import Mathlib.Data.List.Induction
/-!
# The two views of a symbol table

A symbol table answers which symbol is at a path (`SymbolTable.get?`), and is written as an object with
an entry for each path (`SymbolTable.toJson`). Main statement (`SymbolTable.views`): the answer is the
first symbol that was announced at the path, and the object lists the announced paths in the order of
their first announcements, but tells of each what was announced last. So the two views agree exactly
if the first and the last announcement at each path do.

* The index holds the position of the first symbol at each path (`SymbolTable.Indexed`). Every
  announcement keeps it so (`SymbolTable.Indexed.announce`).
* Giving a key a value leaves the other values alone (`Json.lookup_setMember`) and adds the key at the
  end if it is new (`Json.keys_setMember`).
-/

namespace ApiTypings

/-! ### Members with distinct keys -/

namespace Json

variable {α : Type} {key k : String} {v : α} {members : List (String × α)}

theorem lookup_cons_eq_ite (m : String × α) (members : List (String × α)) :
    (m :: members).lookup k = if k = m.1 then some m.2 else members.lookup k := by
  obtain ⟨name, value⟩ := m
  rw [List.lookup_cons]
  by_cases h : k = name
  · rw [beq_iff_eq.2 h, if_pos h]
  · rw [beq_eq_false_iff_ne.2 h, if_neg h]

theorem lookup_setMember :
    (setMember key v members).lookup k = if k = key then some v else members.lookup k := by
  induction members with
  | nil => exact lookup_cons_eq_ite (key, v) []
  | cons m rest ih =>
    obtain ⟨name, value⟩ := m
    unfold setMember
    split
    · next hname =>
      subst hname
      rw [lookup_cons_eq_ite, lookup_cons_eq_ite]
      split <;> rfl
    · next hname =>
      rw [lookup_cons_eq_ite, lookup_cons_eq_ite, ih]
      -- The key that is in front is another one.
      by_cases hk : k = name
      · rw [if_pos hk, if_pos hk, if_neg fun h => hname (hk.symm.trans h)]
      · rw [if_neg hk, if_neg hk]

theorem keys_setMember :
    (setMember key v members).map (·.1) =
      if key ∈ members.map (·.1) then members.map (·.1) else members.map (·.1) ++ [key] := by
  induction members with
  | nil => rfl
  | cons m rest ih =>
    obtain ⟨name, value⟩ := m
    unfold setMember
    by_cases hname : name = key
    · simp [hname]
    · have hmem : key ∈ ((name, value) :: rest).map (·.1) ↔ key ∈ rest.map (·.1) :=
        List.mem_cons.trans (or_iff_right (Ne.symm hname))
      rw [if_neg hname, List.map_cons, ih]
      by_cases h : key ∈ rest.map (·.1)
      · rw [if_pos h, if_pos (hmem.2 h), List.map_cons]
      · rw [if_neg h, if_neg (mt hmem.1 h), List.map_cons, List.cons_append]

theorem distinctMembers_append_singleton (m : String × α) :
    distinctMembers (members ++ [m]) = setMember m.1 m.2 (distinctMembers members) := by
  rw [distinctMembers, List.foldl_append]
  rfl

/-- The keys are those that are given a value, in the order in which they first are. -/
theorem keys_distinctMembers (members : List (String × α)) :
    (distinctMembers members).map (·.1) = (members.map (·.1)).eraseDups := by
  induction members using List.reverseRecOn with
  | nil => rfl
  | append_singleton members m ih =>
    rw [distinctMembers_append_singleton, keys_setMember, ih, List.map_append, List.map_singleton,
      eraseDups_append_singleton]
    simp only [List.mem_eraseDups]

/-- A key has the value that it is given last. -/
theorem lookup_distinctMembers (members : List (String × α)) :
    (distinctMembers members).lookup k = members.reverse.lookup k := by
  induction members using List.reverseRecOn with
  | nil => rfl
  | append_singleton members m ih =>
    rw [distinctMembers_append_singleton, lookup_setMember, List.reverse_concat, lookup_cons_eq_ite, ih]

end Json

/-! ### First and last announcements -/

/-- The symbol is announced, and its path is not announced before. -/
def DeclaredSymbol.IsFirstIn (s : DeclaredSymbol) (symbols : List DeclaredSymbol) : Prop :=
  ∃ before after, symbols = before ++ s :: after ∧ ∀ other ∈ before, other.path ≠ s.path

/-- The symbol is announced, and its path is not announced after it. -/
def DeclaredSymbol.IsLastIn (s : DeclaredSymbol) (symbols : List DeclaredSymbol) : Prop :=
  ∃ before after, symbols = before ++ s :: after ∧ ∀ other ∈ after, other.path ≠ s.path

theorem SymbolKind.ofWord?_word (kind : SymbolKind) : ofWord? kind.word = some kind := by
  cases kind <;> decide

/-- The kinds have different words. -/
theorem SymbolKind.word_injective : Function.Injective SymbolKind.word := fun a b h =>
  Option.some.inj ((ofWord?_word a).symm.trans (h ▸ ofWord?_word b))

namespace SymbolTable

variable {t : SymbolTable} {symbols : List DeclaredSymbol} {path : String} {s : DeclaredSymbol}

/-- The first announcement at a path is what a search for the path finds. -/
theorem find?_eq_some_iff :
    symbols.find? (·.path = path) = some s ↔ s.IsFirstIn symbols ∧ s.path = path := by
  rw [List.find?_eq_some_iff_append, and_comm, decide_eq_true_iff]
  refine and_congr_left fun hpath => ?_
  simp only [DeclaredSymbol.IsFirstIn, Bool.not_eq_true', decide_eq_false_iff_not, hpath]

/-- The last announcement at a path is what a search from the end finds. -/
theorem find?_reverse_eq_some_iff :
    symbols.reverse.find? (·.path = path) = some s ↔ s.IsLastIn symbols ∧ s.path = path := by
  rw [find?_eq_some_iff]
  refine and_congr_left fun _ => ?_
  constructor
  · rintro ⟨before, after, h, hbefore⟩
    refine ⟨after.reverse, before.reverse, ?_, fun other hother => ?_⟩
    · rw [← List.reverse_reverse symbols, h]
      simp
    · exact hbefore other (List.mem_reverse.1 hother)
  · rintro ⟨before, after, rfl, hafter⟩
    refine ⟨after.reverse, before.reverse, by simp, fun other hother => ?_⟩
    exact hafter other (List.mem_reverse.1 hother)

/-! ### The index -/

theorem lookup_notePosition (positions : List (String × Nat)) (position : Nat) (other : String) :
    (notePosition path position positions).lookup other =
      (positions.lookup other).or (if path = other then some position else none) := by
  unfold notePosition
  split
  · next h =>
    by_cases hother : path = other
    · subst hother
      obtain ⟨first, hfirst⟩ := Option.isSome_iff_exists.1 h
      rw [hfirst, Option.some_or]
    · rw [if_neg hother, Option.or_none]
  · rw [List.lookup_append, Json.lookup_cons_eq_ite]
    simp only [List.lookup_nil, eq_comm]

/-- The index holds the position of the first symbol at each path. -/
def Indexed (t : SymbolTable) : Prop :=
  ∀ path, t.positions.lookup path = t.symbols.findIdx? (·.path = path)

theorem indexed_empty : Indexed {} :=
  fun _ => rfl

/-- **One more announcement** leaves the first position of every path that has one. -/
theorem Indexed.announce (h : t.Indexed) (s : DeclaredSymbol) : (t.announce s).Indexed := by
  intro path
  show (notePosition s.path t.symbols.length t.positions).lookup path =
    (t.symbols ++ [s]).findIdx? (·.path = path)
  rw [lookup_notePosition, h path, List.findIdx?_append, List.findIdx?_singleton]
  congr 1
  split <;> simp_all

/-- The table after these announcements. -/
def announceAll (symbols : List DeclaredSymbol) : SymbolTable :=
  symbols.foldl announce {}

theorem announceAll_append_singleton :
    announceAll (symbols ++ [s]) = (announceAll symbols).announce s := by
  rw [announceAll, List.foldl_append]
  rfl

theorem symbols_announceAll (symbols : List DeclaredSymbol) :
    (announceAll symbols).symbols = symbols := by
  induction symbols using List.reverseRecOn with
  | nil => rfl
  | append_singleton symbols s ih =>
    rw [announceAll_append_singleton, announce, ih]

theorem indexed_announceAll (symbols : List DeclaredSymbol) : (announceAll symbols).Indexed := by
  induction symbols using List.reverseRecOn with
  | nil => exact indexed_empty
  | append_singleton symbols s ih =>
    rw [announceAll_append_singleton]
    exact ih.announce s

/-- A table that is made of announcements at once is the one that they lead to. -/
theorem ofList_eq_announceAll (symbols : List DeclaredSymbol) :
    ofList symbols = announceAll symbols := by
  induction symbols using List.reverseRecOn with
  | nil => rfl
  | append_singleton symbols s ih =>
    rw [announceAll_append_singleton, ← ih]
    simp [ofList, announce, List.zipIdx_append]

/-- What stands at the first position of a kind is the first of its kind. -/
theorem bind_findIdx? (p : DeclaredSymbol → Bool) (symbols : List DeclaredSymbol) :
    (symbols.findIdx? p).bind (symbols[·]?) = symbols.find? p := by
  induction symbols with
  | nil => rfl
  | cons s rest ih =>
    rw [List.findIdx?_cons, List.find?_cons, ← ih]
    cases p s with
    | true => rfl
    | false => cases rest.findIdx? p <;> rfl

theorem Indexed.get?_eq_find? (h : t.Indexed) (path : String) :
    t.get? path = t.symbols.find? (·.path = path) := by
  rw [get?, h path, bind_findIdx?]

/-- A table answers with the first announcement at a path. -/
theorem get?_announceAll (symbols : List DeclaredSymbol) (path : String) :
    (announceAll symbols).get? path = symbols.find? (·.path = path) := by
  rw [(indexed_announceAll symbols).get?_eq_find?, symbols_announceAll]

/-! ### The object -/

theorem keys_entries (symbols : List DeclaredSymbol) :
    (announceAll symbols).entries.map (·.1) = (symbols.map (·.path)).eraseDups := by
  rw [entries, symbols_announceAll, Json.keys_distinctMembers, List.map_map]
  rfl

theorem lookup_map_entry (symbols : List DeclaredSymbol) (path : String) :
    (symbols.map fun s => (s.path, entry s)).lookup path =
      (symbols.find? (·.path = path)).map entry := by
  induction symbols with
  | nil => rfl
  | cons s rest ih =>
    rw [List.map_cons, Json.lookup_cons_eq_ite, ih, List.find?_cons]
    by_cases h : s.path = path
    · simp [h]
    · simp [h, Ne.symm h]

/-- The object tells of a path what is announced there last. -/
theorem member?_toJson (symbols : List DeclaredSymbol) (path : String) :
    (announceAll symbols).toJson.member? path =
      (symbols.reverse.find? (·.path = path)).map entry := by
  show (announceAll symbols).entries.lookup path = _
  rw [entries, symbols_announceAll, Json.lookup_distinctMembers, ← List.map_reverse, lookup_map_entry]

/-- An entry tells the kind and whether the symbol is deprecated. -/
theorem entry_eq_entry_iff {s s' : DeclaredSymbol} :
    entry s = entry s' ↔ s.kind = s'.kind ∧ s.deprecated = s'.deprecated := by
  simp [entry, SymbolKind.word_injective.eq_iff]

/-! ### Both views -/

theorem IsFirstIn.mem (h : s.IsFirstIn symbols) : s ∈ symbols := by
  obtain ⟨before, after, rfl, -⟩ := h
  simp

/-- Where something is announced, something is announced last. -/
theorem exists_isLastIn (hs : s ∈ symbols) :
    ∃ last : DeclaredSymbol, last.IsLastIn symbols ∧ last.path = s.path := by
  have hsome : (symbols.reverse.find? (·.path = s.path)).isSome = true :=
    List.find?_isSome.2 ⟨s, List.mem_reverse.2 hs, decide_eq_true rfl⟩
  obtain ⟨last, hlast⟩ := Option.isSome_iff_exists.1 hsome
  exact ⟨last, find?_reverse_eq_some_iff.1 hlast⟩

theorem get?_eq_some_iff :
    (announceAll symbols).get? path = some s ↔ s.IsFirstIn symbols ∧ s.path = path := by
  rw [get?_announceAll, find?_eq_some_iff]

theorem member?_toJson_of_isLastIn (h : s.IsLastIn symbols) :
    (announceAll symbols).toJson.member? s.path = some (entry s) := by
  rw [member?_toJson, find?_reverse_eq_some_iff.2 ⟨h, rfl⟩, Option.map_some]

/-- **The two views of a symbol table**, whatever is announced.

* Announcing symbols one after the other leads to the table that is made of all of them.
* Asked for a path, the table answers with the first symbol that was announced there, and with none
  if there is none.
* The object lists the announced paths, each once, in the order of their first announcements.
* What it tells of a path is what was announced there last.
* So it tells of every path what the answer is if and only if the first and the last symbol at each
  path are of one kind, and both are deprecated or neither is. -/
theorem views (symbols : List DeclaredSymbol) :
    announceAll symbols = ofList symbols ∧
    (∀ path s, (announceAll symbols).get? path = some s ↔ s.IsFirstIn symbols ∧ s.path = path) ∧
    (∀ path, (announceAll symbols).get? path = none ↔ path ∉ symbols.map (·.path)) ∧
    (∃ members, (announceAll symbols).toJson = .object members ∧
      members.map (·.1) = (symbols.map (·.path)).eraseDups) ∧
    (∀ path v, (announceAll symbols).toJson.member? path = some v ↔
      ∃ s : DeclaredSymbol, s.IsLastIn symbols ∧ s.path = path ∧ entry s = v) ∧
    ((∀ path s, (announceAll symbols).get? path = some s →
        (announceAll symbols).toJson.member? path = some (entry s)) ↔
      ∀ first last : DeclaredSymbol, first.IsFirstIn symbols → last.IsLastIn symbols →
        first.path = last.path → first.kind = last.kind ∧ first.deprecated = last.deprecated) := by
  refine ⟨(ofList_eq_announceAll symbols).symm, fun path s => get?_eq_some_iff, fun path => ?_,
    ⟨_, rfl, keys_entries symbols⟩, fun path v => ?_,
    fun hagree first last hfirst hlast hpath => ?_, fun hsame path first hget => ?_⟩
  · rw [get?_announceAll, List.find?_eq_none]
    simp
  · rw [member?_toJson, Option.map_eq_some_iff]
    simp only [find?_reverse_eq_some_iff, and_assoc]
  · have htold := hagree first.path first (get?_eq_some_iff.2 ⟨hfirst, rfl⟩)
    rw [hpath, member?_toJson_of_isLastIn hlast, Option.some_inj] at htold
    exact entry_eq_entry_iff.1 htold.symm
  · obtain ⟨hfirst, rfl⟩ := get?_eq_some_iff.1 hget
    obtain ⟨last, hlast, hpath⟩ := exists_isLastIn (IsFirstIn.mem hfirst)
    rw [← hpath, member?_toJson_of_isLastIn hlast, Option.some_inj, entry_eq_entry_iff]
    obtain ⟨hkind, hdeprecated⟩ := hsame first last hfirst hlast hpath.symm
    exact ⟨hkind.symm, hdeprecated.symm⟩

/-- A namespace with a function, and a namespace that has the path of the function. -/
def sharedPath : List DeclaredSymbol :=
  [⟨"a", .namespaceBlock, false⟩, ⟨"a.b", .function, false⟩, ⟨"a.b", .namespaceBlock, true⟩]

/-- The table answers with the function, and the object tells of the namespace. -/
theorem views_sharedPath :
    (announceAll sharedPath).get? "a.b" = some ⟨"a.b", .function, false⟩ ∧
      (announceAll sharedPath).toJson.member? "a.b" ≠ some (entry ⟨"a.b", .function, false⟩) := by
  refine ⟨by decide +kernel, ?_⟩
  have htold : (announceAll sharedPath).toJson.member? "a.b" =
      some (entry ⟨"a.b", .namespaceBlock, true⟩) := rfl
  rw [htold, Ne, Option.some_inj, entry_eq_entry_iff]
  decide

end SymbolTable

end ApiTypings
