import ApiTypings.Declaration.Renderer
import ApiTypings.Proofs.Lineage
/-!
# What lowering walks through

Lowering a type calls nine functions that call each other. Here the lists among them are written as
maps over the properties that are visible, so that what is proved of them is proved of one property
at a time: `Property.deferred` is a property with its type lowered, and `ApiType.lowerMember` gives
the members of an object for one of its properties.

A function type is met in three roles: as a type, as a function with overloads, and as a completion
callback whose parameters become results of promises. So what is proved of types by induction has to
say something of each (`ApiType.lower`, `ApiType.lowerCallable?`, `ApiType.lowerResults`).
-/

namespace ApiTypings

variable {scope : List String} {path : String}

/-! ### Lists of properties -/

/-- A property of the model with its type lowered at a path. -/
def Property.deferred (scope : List String) (path : String) (p : Property ApiType) :
    Property Deferred :=
  ⟨p.toTraits, p.name, .mk fun _ => p.type.lower scope path⟩

namespace Property

variable {τ : Type}

theorem visible_cons_of_nodoc {p : Property τ} (ps : List (Property τ)) (h : p.nodoc = true) :
    visible (p :: ps) = visible ps :=
  List.filter_cons_of_neg (by rw [h]; exact Bool.false_ne_true)

theorem visible_cons_of_shown {p : Property τ} (ps : List (Property τ)) (h : ¬p.nodoc = true) :
    visible (p :: ps) = p :: visible ps :=
  List.filter_cons_of_pos (by rw [Bool.of_not_eq_true h]; rfl)

theorem mem_of_mem_visible {p : Property τ} {ps : List (Property τ)} (h : p ∈ visible ps) :
    p ∈ ps :=
  List.mem_of_mem_filter h

end Property

namespace ApiType

theorem lowerItems_eq_mapM (ts : List ApiType) :
    lowerItems scope path ts = ts.mapM (lower scope path) := by
  induction ts with
  | nil => rfl
  | cons t ts ih => rw [lowerItems, ih, List.mapM_cons]

theorem lowerVisible_eq_map (ps : List (Property ApiType)) :
    lowerVisible scope path ps =
      (Property.visible ps).map fun p => p.deferred scope (member path p.name) := by
  induction ps with
  | nil => rfl
  | cons p ps ih =>
    rw [lowerVisible, ih]
    split
    next h => rw [Property.visible_cons_of_nodoc ps h]
    next h => rw [Property.visible_cons_of_shown ps h, List.map_cons, Property.deferred]

theorem lowerPromised_eq_map (ps : List (Property ApiType)) :
    lowerPromised scope path ps = (Property.visible ps).map (Property.deferred scope path) := by
  induction ps with
  | nil => rfl
  | cons p ps ih =>
    rw [lowerPromised, ih]
    split
    next h => rw [Property.visible_cons_of_nodoc ps h]
    next h => rw [Property.visible_cons_of_shown ps h, List.map_cons, Property.deferred]

theorem lowerResult_eq_map (p : Option (Property ApiType)) :
    lowerResult scope path p = p.map fun p => p.deferred scope (member path p.name) := by
  cases p <;> rfl

theorem lowerCompletion_eq_map (callbackOnly : Bool) (p : Option (Property ApiType)) :
    lowerCompletion scope path callbackOnly p = p.map fun p =>
      ⟨p.deferred scope (member path p.name), lowerResults scope path p.type, callbackOnly⟩ := by
  cases p <;> rfl

/-- The members of an object at a path for one of its properties. -/
def lowerMember (scope : List String) (path : String) (p : Property ApiType) :
    Except DeclarationError (List (ObjectMember TypeExpr)) :=
  let child := member path p.name
  let doc := p.toTraits.doc p.type child
  match if p.mayBeMethod then lowerCallable? scope child p.type else none with
  | some c => lowerMethod c p.name child doc
  | none => (lower scope child p.type).map fun t => [.property doc (memberKey p.name) p.optional t]

theorem lowerMembers_cons {p : Property ApiType} (ps : List (Property ApiType))
    (h : ¬p.nodoc = true) :
    lowerMembers scope path (p :: ps) =
      lowerMember scope path p >>= fun here =>
        lowerMembers scope path ps >>= fun rest => pure (here ++ rest) := by
  rw [lowerMembers, if_neg h, lowerMember]
  dsimp only
  cases if p.mayBeMethod then lowerCallable? scope (member path p.name) p.type else none <;> rfl

theorem lowerMembers_eq_mapM (ps : List (Property ApiType)) :
    lowerMembers scope path ps =
      ((Property.visible ps).mapM (lowerMember scope path)).map List.flatten := by
  induction ps with
  | nil => rfl
  | cons p ps ih =>
    by_cases h : p.nodoc = true
    · rw [Property.visible_cons_of_nodoc ps h, ← ih, lowerMembers, if_pos h]
    · rw [Property.visible_cons_of_shown ps h, lowerMembers_cons ps h, ih, List.mapM_cons]
      cases lowerMember scope path p with
      | error e => rfl
      | ok here => cases (Property.visible ps).mapM (lowerMember scope path) <;> rfl

end ApiType

/-! ### Replacements -/

/-- The target of a reference, and whether it has no arguments. -/
def ApiType.reference? : ApiType → Option (Reference × Bool)
  | .reference target arguments => some (target, arguments.isEmpty)
  | _ => none

/-- Of a reference a replacement looks at the target and at whether there are arguments, and of any
other type only at whether it is `any`. -/
theorem Replacement.find?_congr {t u : ApiType} (hreference : u.reference? = t.reference?)
    (hany : u.isAny = t.isAny) (path : String) : find? path u = find? path t := by
  have hfilled : ∀ (slot : GenericSlot) (t : ApiType),
      slot.isFilled t = t.reference?.any fun r => r.1.generic && r.1.name = slot.parameter := by
    intro slot t
    cases t <;> rfl
  have happlies : ∀ slot : GenericSlot, slot.applies path u = slot.applies path t := by
    intro slot
    rw [GenericSlot.applies, GenericSlot.applies, hfilled, hfilled, hreference, hany]
  -- Arguments are looked at only for being there, so some stand for any.
  have hfind : ∀ t : ApiType, find? path t =
      (((genericSlots.find? (·.applies path t)).map fun slot => parameter slot.parameter) <|>
        t.reference?.bind fun r => ofReference? path r.1 (if r.2 then [] else [.void])) := by
    intro t
    unfold find?
    cases genericSlots.find? (·.applies path t) with
    | some slot => rfl
    | none =>
      cases t with
      | reference target arguments => cases arguments <;> rfl
      | _ => rfl
  simp only [hfind, happlies, hreference]

/-! ### Order and groups -/

section

variable {e : Property ApiType → Property ApiType}

theorem sortByName_map (hname : ∀ p, (e p).name = p.name) (ps : List (Property ApiType)) :
    sortByName (ps.map e) = (sortByName ps).map e := by
  refine (List.map_mergeSort fun p _ q _ => ?_).symm
  rw [hname, hname]

/-- The groups of changed members are the members of the groups, changed, as long as the change
leaves names alone, and what is a type and what is a function. -/
theorem memberGroups_map (hname : ∀ p, (e p).name = p.name)
    (htype : ∀ p, (e p).isType = p.isType)
    (hfunction : ∀ p, (e p).type.isFunction = p.type.isFunction) {ps qs : List (Property ApiType)}
    (hvisible : Property.visible qs = (Property.visible ps).map e) (sorted : Bool) :
    memberGroups sorted qs =
      ((memberGroups sorted ps).1.map e, (memberGroups sorted ps).2.1.map e,
        (memberGroups sorted ps).2.2.map e) := by
  have hfilter : ∀ (f : Property ApiType → Bool) (ps : List (Property ApiType)),
      (∀ p, f (e p) = f p) → (ps.map e).filter f = (ps.filter f).map e := by
    intro f ps hf
    rw [List.filter_map]
    exact congrArg (List.map e) (List.filter_congr fun p _ => hf p)
  have hnotFunction : ∀ p, (!(e p).type.isFunction) = !p.type.isFunction :=
    fun p => congrArg not (hfunction p)
  unfold memberGroups
  rw [hvisible]
  dsimp only
  rw [hfilter _ _ htype, hfilter _ _ fun p => congrArg not (htype p), hfilter _ _ hnotFunction,
    hfilter _ _ hfunction]
  cases sorted with
  | false => rfl
  | true => simp only [if_true, sortByName_map hname]

end

/-- The groups together are the visible members. -/
theorem memberGroups_perm (sorted : Bool) (members : List (Property ApiType)) :
    ((memberGroups sorted members).1 ++ (memberGroups sorted members).2.1
      ++ (memberGroups sorted members).2.2).Perm (Property.visible members) := by
  have horder : ∀ ps : List (Property ApiType),
      ((if sorted then sortByName else id) ps).Perm ps := by
    intro ps
    cases sorted with
    | false => exact .refl ps
    | true => exact List.mergeSort_perm ps _
  have hothers : ∀ ps : List (Property ApiType),
      (ps.filter (!·.type.isFunction) ++ ps.filter (·.type.isFunction)).Perm ps := fun ps =>
    List.perm_append_comm.trans (List.filter_append_perm (·.type.isFunction) ps)
  rw [List.append_assoc]
  refine ((horder _).append ((horder _).append (horder _))).trans ?_
  exact ((List.Perm.refl _).append (hothers _)).trans (List.filter_append_perm _ _)

/-- The same for namespaces and their order. -/
theorem visibleNamespaces_map {e : Namespace → Namespace} (hname : ∀ ns, (e ns).name = ns.name)
    (hvisible : ∀ ns, (e ns).hasVisibleMembers = ns.hasVisibleMembers)
    (namespaces : List Namespace) :
    visibleNamespaces (namespaces.map e) = (visibleNamespaces namespaces).map e := by
  unfold visibleNamespaces
  rw [List.filter_map, show Namespace.hasVisibleMembers ∘ e = Namespace.hasVisibleMembers from
    funext hvisible]
  refine (List.map_mergeSort fun n _ m _ => ?_).symm
  rw [hname, hname]

end ApiTypings
