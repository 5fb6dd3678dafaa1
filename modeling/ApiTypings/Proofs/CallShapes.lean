import ApiTypings.Proofs.Placement
import Mathlib.Data.List.Infix
/-!
# The ways of calling a function

A call of a function is known by the positions of the parameters that it gives arguments to
(`Property.IsCall`): it may leave out any of the left-optional parameters, and of the other optional
ones all from some point on. An overload can only be called with all its required parameters, and then
with the first few of its optional ones (`Property.Accepts`).

Main statement: the overloads of each family accept every call of its parameter list, each call once,
and nothing else (`ApiType.expand_covers`).
-/

namespace ApiTypings

namespace Property

variable {τ : Type}

/-! ### Calls -/

/-- Whether a required parameter stands after a position. -/
def requiredAfter (ps : List (Property τ)) (i : ℕ) : Bool :=
  (requireds (placed ps)).any fun q => i < q.position

/-- The positions of the optional parameters with a required one after them. -/
def leftPositions (ps : List (Property τ)) : List ℕ :=
  positions ((optionals (placed ps)).filter fun p => requiredAfter ps p.position)

/-- The positions of the other optional parameters. -/
def trailingPositions (ps : List (Property τ)) : List ℕ :=
  positions ((optionals (placed ps)).filter fun p => !requiredAfter ps p.position)

/-- A call, by the positions that it gives arguments to: some left-optional parameters are left out,
and the last few of the other optional ones. -/
def IsCall (ps : List (Property τ)) (call : List ℕ) : Prop :=
  ∃ left last, left ⊆ leftPositions ps ∧ last <:+ trailingPositions ps ∧
    call = (List.range ps.length).filter fun i => i ∉ left ∧ i ∉ last

/-- An overload accepts its required parameters followed by the first few of its optional ones. -/
def Accepts (overload : List (Property (ℕ × τ))) (call : List ℕ) : Prop :=
  ∃ n, call = positions (requireds overload) ++ (positions (optionals overload)).take n

/-- Parameter lists cover the calls of `ps`: `overloads` are these lists with the positions that their
parameters have in `ps`. -/
structure Covers (ps : List (Property τ)) (lists : List (List (Property τ)))
    (overloads : List (List (Property (ℕ × τ)))) : Prop where
  unplaced_eq : overloads.map (List.map unplaced) = lists
  /-- The parameters of an overload are those of `ps`, the left-optional ones being required. -/
  exists_placed : ∀ overload ∈ overloads, ∀ q ∈ overload, ∃ p ∈ placed ps,
    q = if p.position ∈ leftPositions ps then p.required else p
  length_eq : lists.length = 2 ^ (leftPositions ps).length
  head_eq : overloads.head?.map positions = some (List.range ps.length)
  isCall : ∀ overload ∈ overloads, ∀ call, Accepts overload call → IsCall ps call
  existsUnique : ∀ call, IsCall ps call →
    ∃! k : ℕ, ∃ overload, overloads[k]? = some overload ∧ Accepts overload call

/-! ### The front and the back with their positions -/

variable {front back : List (Property τ)}

theorem placed_append (front back : List (Property τ)) :
    placed (front ++ back) = placedFrom 0 front ++ placedFrom front.length back := by
  rw [placed, placedFrom_append, Nat.zero_add]

theorem positions_placed (ps : List (Property τ)) : positions (placed ps) = List.range ps.length := by
  rw [placed, positions_placedFrom, List.range_eq_range']

theorem position_mem_placedFrom {start : ℕ} {ps : List (Property τ)} {q : Property (ℕ × τ)}
    (hq : q ∈ placedFrom start ps) : start ≤ q.position ∧ q.position < start + ps.length := by
  have hmem : q.position ∈ positions (placedFrom start ps) := List.mem_map_of_mem hq
  rwa [positions_placedFrom, List.mem_range'_1] at hmem

theorem optionals_eq_self (h : ∀ p ∈ back, p.optional = true) : optionals back = back :=
  List.filter_eq_self.2 h

theorem requireds_eq_nil (h : ∀ p ∈ back, p.optional = true) : requireds back = [] :=
  List.filter_eq_nil_iff.2 fun p hp => by simp [h p hp]

/-- In the front a required parameter stands after every optional one. -/
theorem requiredAfter_front (hfront : EndsRequired front) {q : Property (ℕ × τ)}
    (hq : q ∈ optionals (placedFrom 0 front)) : requiredAfter (front ++ back) q.position = true := by
  obtain ⟨hmem, hoptional⟩ := List.mem_filter.1 hq
  obtain ⟨before, after, hsplit⟩ := List.append_of_mem hmem
  have hends : EndsRequired (q :: after) := by
    intro last hlast
    refine hfront.placedFrom 0 last ?_
    rw [hsplit, List.getLast?_append, Option.mem_def.1 hlast, Option.some_or]
    rfl
  obtain ⟨r, hr, hrequired⟩ := List.any_eq_true.1 (hends.any_required hoptional)
  -- Positions grow along the list.
  have hpositions : (positions (before ++ q :: after)).Pairwise (· < ·) := by
    rw [← hsplit, positions_placedFrom]
    exact List.pairwise_lt_range' ..
  have hlt : q.position < r.position := by
    rw [positions_append, List.pairwise_append] at hpositions
    exact List.rel_of_pairwise_cons hpositions.2.1 (List.mem_map_of_mem hr)
  have hplaced : r ∈ placed (front ++ back) := by
    rw [placed_append, hsplit]
    simp [hr]
  exact List.any_eq_true.2 ⟨r, List.mem_filter.2 ⟨hplaced, hrequired⟩, decide_eq_true hlt⟩

/-- In the back no required parameter stands after any. -/
theorem requiredAfter_back (hback : ∀ p ∈ back, p.optional = true) {q : Property (ℕ × τ)}
    (hq : q ∈ placedFrom front.length back) : requiredAfter (front ++ back) q.position = false := by
  refine List.any_eq_false.2 fun r hr => ?_
  obtain ⟨hr, hrequired⟩ := List.mem_filter.1 hr
  rw [placed_append] at hr
  rcases List.mem_append.1 hr with hr | hr
  · have hrfront := position_mem_placedFrom hr
    have hqback := position_mem_placedFrom hq
    simp only [decide_eq_true_eq]
    omega
  · rw [optional_placedFrom hback _ r hr] at hrequired
    cases hrequired

/-- The optional parameters of both are those of the front, and the back. -/
theorem optionals_placed_append (hback : ∀ p ∈ back, p.optional = true) :
    optionals (placed (front ++ back)) =
      optionals (placedFrom 0 front) ++ placedFrom front.length back := by
  rw [placed_append, optionals, List.filter_append]
  exact congrArg _ (optionals_eq_self (optional_placedFrom hback _))

/-- The left-optional parameters are the optional ones of the front. -/
theorem leftPositions_append (hfront : EndsRequired front) (hback : ∀ p ∈ back, p.optional = true) :
    leftPositions (front ++ back) = positions (optionals (placedFrom 0 front)) := by
  have hkept := List.filter_eq_self.2 fun q hq => @requiredAfter_front τ front back hfront q hq
  have hdropped := List.filter_eq_nil_iff.2 fun q hq =>
    Bool.eq_false_iff.1 (@requiredAfter_back τ front back hback q hq)
  rw [leftPositions, optionals_placed_append hback, List.filter_append, hkept, hdropped,
    List.append_nil]

/-- The other optional parameters are those of the back. -/
theorem trailingPositions_append (hfront : EndsRequired front)
    (hback : ∀ p ∈ back, p.optional = true) :
    trailingPositions (front ++ back) = positions (placedFrom front.length back) := by
  have hdropped : (optionals (placedFrom 0 front)).filter
      (fun q => !requiredAfter (front ++ back) q.position) = [] :=
    List.filter_eq_nil_iff.2 fun q hq => by simp [requiredAfter_front hfront hq]
  have hkept : (placedFrom front.length back).filter
      (fun q => !requiredAfter (front ++ back) q.position) = placedFrom front.length back :=
    List.filter_eq_self.2 fun q hq => by simp [requiredAfter_back hback hq]
  rw [trailingPositions, optionals_placed_append hback, List.filter_append, hdropped, hkept,
    List.nil_append]

/-! ### Covering -/

/-- Leaving out some of `xs` and the end of `ys`. -/
theorem filter_append_eq {xs ys left : List ℕ} (hnodup : (xs ++ ys).Nodup) (hleft : left ⊆ xs)
    (n : ℕ) :
    (xs ++ ys).filter (fun i => i ∉ left ∧ i ∉ ys.drop n) = xs.filter (· ∉ left) ++ ys.take n := by
  obtain ⟨-, hys, hdisjoint⟩ := List.nodup_append'.1 hnodup
  have hfirst : xs.filter (fun i => i ∉ left ∧ i ∉ ys.drop n) = xs.filter (· ∉ left) := by
    refine List.filter_congr fun i hi => ?_
    have hnot : i ∉ ys.drop n := fun h => hdisjoint hi (List.mem_of_mem_drop h)
    simp [hnot]
  have hlast : ys.filter (fun i => i ∉ left ∧ i ∉ ys.drop n) = ys.take n := by
    have hsplit := List.take_append_drop n ys
    have hcut := (List.nodup_append'.1 (hsplit.symm ▸ hys)).2.2
    have hkept : (ys.take n).filter (fun i => i ∉ left ∧ i ∉ ys.drop n) = ys.take n :=
      List.filter_eq_self.2 fun i hi => by
        have hnot : i ∉ left := fun h => hdisjoint (hleft h) (List.mem_of_mem_take hi)
        have hnot' : i ∉ ys.drop n := fun h => hcut hi h
        simp [hnot, hnot']
    have hdropped : (ys.drop n).filter (fun i => i ∉ left ∧ i ∉ ys.drop n) = [] :=
      List.filter_eq_nil_iff.2 fun i hi => by simp [hi]
    calc ys.filter (fun i => i ∉ left ∧ i ∉ ys.drop n)
        = (ys.take n ++ ys.drop n).filter (fun i => i ∉ left ∧ i ∉ ys.drop n) := by rw [hsplit]
      _ = ys.take n := by rw [List.filter_append, hkept, hdropped, List.append_nil]
  rw [List.filter_append, hfirst, hlast]

/-- What is taken of `xs` can be told from the whole. -/
theorem eq_of_append_take_eq {xs ys kept kept' : List ℕ} (hdisjoint : xs.Disjoint ys)
    (hkept : kept ⊆ xs) (hkept' : kept' ⊆ xs) {n n' : ℕ}
    (h : kept ++ ys.take n = kept' ++ ys.take n') : kept = kept' := by
  -- Lengths do not help, as `n` and `n'` may differ, but nothing of `ys` is in `xs`.
  have hxs {part : List ℕ} (hpart : part ⊆ xs) (m : ℕ) :
      (part ++ ys.take m).filter (· ∈ xs) = part := by
    have hfirst : part.filter (· ∈ xs) = part :=
      List.filter_eq_self.2 fun i hi => decide_eq_true (hpart hi)
    have hlast : (ys.take m).filter (· ∈ xs) = [] :=
      List.filter_eq_nil_iff.2 fun i hi => by
        simpa using fun h => hdisjoint h (List.mem_of_mem_take hi)
    rw [List.filter_append, hfirst, hlast, List.append_nil]
  rw [← hxs hkept n, h, hxs hkept' n']

theorem range_length_append (front back : List (Property τ)) :
    List.range (front ++ back).length =
      positions (placedFrom 0 front) ++ positions (placedFrom front.length back) := by
  rw [← positions_placed, placed_append, positions_append]

theorem nodup_positions_append (front back : List (Property τ)) :
    (positions (placedFrom 0 front) ++ positions (placedFrom front.length back)).Nodup := by
  rw [← range_length_append]
  exact List.nodup_range

theorem nodup_positions_front (front : List (Property τ)) :
    (positions (placedFrom 0 front)).Nodup := by
  rw [positions_placedFrom]
  exact List.nodup_range'

/-- The calls of a front and a back: some optional ones of the front are left out, and the end of the
back. -/
theorem isCall_append_iff (hfront : EndsRequired front) (hback : ∀ p ∈ back, p.optional = true)
    {call : List ℕ} :
    IsCall (front ++ back) call ↔
      ∃ kept ∈ (choices (placedFrom 0 front)).map positions, ∃ n,
        call = kept ++ (positions (placedFrom front.length back)).take n := by
  have hnodup := nodup_positions_append front back
  unfold IsCall
  rw [leftPositions_append hfront hback, trailingPositions_append hfront hback, range_length_append]
  constructor
  · rintro ⟨left, last, hleft, hlast, rfl⟩
    have hsubset := List.Subset.trans hleft (positions_optionals_subset _)
    rw [List.suffix_iff_eq_drop.1 hlast, filter_append_eq hnodup hsubset]
    exact ⟨_, (mem_choices_iff (nodup_positions_front front)).2 ⟨left, hleft, rfl⟩, _, rfl⟩
  · rintro ⟨kept, hkept, n, rfl⟩
    obtain ⟨left, hleft, rfl⟩ := (mem_choices_iff (nodup_positions_front front)).1 hkept
    have hsubset := List.Subset.trans hleft (positions_optionals_subset _)
    exact ⟨left, _, hleft, List.drop_suffix n _, (filter_append_eq hnodup hsubset n).symm⟩

theorem accepts_append_iff {chosen rest : List (Property (ℕ × τ))}
    (hchosen : ∀ q ∈ chosen, q.optional = false) (hrest : ∀ q ∈ rest, q.optional = true)
    {call : List ℕ} :
    Accepts (chosen ++ rest) call ↔ ∃ n, call = positions chosen ++ (positions rest).take n := by
  have hoptionals : optionals (chosen ++ rest) = rest := by
    have hnone : optionals chosen = [] :=
      List.filter_eq_nil_iff.2 fun q hq => Bool.eq_false_iff.1 (hchosen q hq)
    rw [optionals, List.filter_append]
    exact (congrArg₂ _ hnone (optionals_eq_self hrest)).trans (List.nil_append rest)
  have hrequireds : requireds (chosen ++ rest) = chosen := by
    have hall : requireds chosen = chosen :=
      List.filter_eq_self.2 fun q hq => by simp [hchosen q hq]
    rw [requireds, List.filter_append]
    exact (congrArg₂ _ hall (requireds_eq_nil hrest)).trans (List.append_nil chosen)
  rw [Accepts, hoptionals, hrequireds]

/-! ### Omissions with their positions -/

/-- The parameter lists that are left, with their positions: choices in the front, and the back. -/
theorem omissions_placed (hfront : EndsRequired front) (hback : ∀ p ∈ back, p.optional = true) :
    omissions (placed (front ++ back)) =
      (choices (placedFrom 0 front)).map (· ++ placedFrom front.length back) := by
  rw [placed_append, omissions_append (hfront.placedFrom 0) (optional_placedFrom hback _)]

theorem accepts_choice_iff (hback : ∀ p ∈ back, p.optional = true)
    {chosen : List (Property (ℕ × τ))} (h : chosen ∈ choices (placedFrom 0 front))
    {call : List ℕ} :
    Accepts (chosen ++ placedFrom front.length back) call ↔
      ∃ n, call = positions chosen ++ (positions (placedFrom front.length back)).take n :=
  accepts_append_iff (required_of_mem_choices h) (optional_placedFrom hback _)

/-- What is left are parameters of the list, the left-optional ones being required. -/
theorem exists_placed_of_mem_choice (hfront : EndsRequired front)
    (hback : ∀ p ∈ back, p.optional = true) {chosen : List (Property (ℕ × τ))}
    (hchosen : chosen ∈ choices (placedFrom 0 front)) :
    ∀ q ∈ chosen ++ placedFrom front.length back, ∃ p ∈ placed (front ++ back),
      q = if p.position ∈ leftPositions (front ++ back) then p.required else p := by
  intro q hq
  rw [leftPositions_append hfront hback, placed_append]
  rcases List.mem_append.1 hq with hq | hq
  · obtain ⟨p, hp, rfl⟩ := exists_eq_required_of_mem_choices hchosen q hq
    refine ⟨p, List.mem_append_left _ hp, ?_⟩
    by_cases hoptional : p.optional = true
    · have hleft : p.position ∈ positions (optionals (placedFrom 0 front)) :=
        List.mem_map_of_mem (List.mem_filter.2 ⟨hp, hoptional⟩)
      rw [if_pos hleft]
    · have hrequired : p.required = p := by rw [required, ← Bool.of_not_eq_true hoptional]
      rw [hrequired, ite_self]
  · refine ⟨q, List.mem_append_right _ hq, (if_neg fun hleft => ?_).symm⟩
    have hdisjoint := (List.nodup_append'.1 (nodup_positions_append front back)).2.2
    exact hdisjoint (positions_optionals_subset _ hleft) (List.mem_map_of_mem hq)

theorem subset_of_mem_choices {kept : List ℕ}
    (h : kept ∈ (choices (placedFrom 0 front)).map positions) :
    kept ⊆ positions (placedFrom 0 front) := by
  obtain ⟨left, -, rfl⟩ := (mem_choices_iff (nodup_positions_front front)).1 h
  exact List.filter_subset_self _

/-- A call of a front and a back determines the choice in the front. -/
theorem choice_unique {k k' : ℕ} {chosen chosen' : List (Property (ℕ × τ))} {n n' : ℕ}
    (hk : (choices (placedFrom 0 front))[k]? = some chosen)
    (hk' : (choices (placedFrom 0 front))[k']? = some chosen')
    (h : positions chosen ++ (positions (placedFrom front.length back)).take n =
      positions chosen' ++ (positions (placedFrom front.length back)).take n') : k = k' := by
  have hdisjoint := (List.nodup_append'.1 (nodup_positions_append front back)).2.2
  have hchosen := subset_of_mem_choices (List.mem_map_of_mem (List.mem_of_getElem? hk))
  have hchosen' := subset_of_mem_choices (List.mem_map_of_mem (List.mem_of_getElem? hk'))
  have hsame : positions chosen = positions chosen' :=
    eq_of_append_take_eq hdisjoint hchosen hchosen' h
  -- No positions are chosen twice, so the places of the two choices are the same.
  have hplace : ((choices (placedFrom 0 front)).map positions)[k]? = some (positions chosen) := by
    rw [List.getElem?_map, hk]
    rfl
  have hplace' : ((choices (placedFrom 0 front)).map positions)[k']? = some (positions chosen) := by
    rw [List.getElem?_map, hk', hsame]
    rfl
  have hbound := (List.getElem?_eq_some_iff.1 hplace).1
  exact (List.getElem?_inj hbound (nodup_choices (nodup_positions_front front))).1
    (hplace.trans hplace'.symm)

/-- Every call is accepted by one of the parameter lists that are left. -/
theorem existsUnique_accepts (hfront : EndsRequired front) (hback : ∀ p ∈ back, p.optional = true)
    {call : List ℕ} (hcall : IsCall (front ++ back) call) :
    ∃! k : ℕ, ∃ overload, (omissions (placed (front ++ back)))[k]? = some overload ∧
      Accepts overload call := by
  obtain ⟨kept, hkept, n, rfl⟩ := (isCall_append_iff hfront hback).1 hcall
  obtain ⟨chosen, hchosen, rfl⟩ := List.mem_map.1 hkept
  obtain ⟨k, hk⟩ := List.getElem?_of_mem hchosen
  rw [omissions_placed hfront hback]
  refine ⟨k, ⟨chosen ++ placedFrom front.length back, ?_, ?_⟩, ?_⟩
  · rw [List.getElem?_map, hk]
    rfl
  · exact (accepts_choice_iff hback hchosen).2 ⟨n, rfl⟩
  · rintro k' ⟨overload, hoverload, haccepts⟩
    rw [List.getElem?_map] at hoverload
    obtain ⟨chosen', hk', rfl⟩ := Option.map_eq_some_iff.1 hoverload
    obtain ⟨n', heq⟩ := (accepts_choice_iff hback (List.mem_of_getElem? hk')).1 haccepts
    exact choice_unique hk' hk heq.symm

/-- **Leaving parameters out covers the calls**: with their positions, the parameter lists that are
left accept every call, each call once, and nothing else. -/
theorem covers_omissions (ps : List (Property τ)) :
    Covers ps (omissions ps) (omissions (placed ps)) := by
  obtain ⟨front, back, rfl, hfront, hback⟩ := exists_front_back ps
  have hunplaced : (omissions (placed (front ++ back))).map (List.map unplaced) =
      omissions (front ++ back) := by
    rw [← omissions_map_unplaced, placed, unplaced_placedFrom]
  constructor
  case unplaced_eq => exact hunplaced
  case exists_placed =>
    intro overload hoverload
    rw [omissions_placed hfront hback] at hoverload
    obtain ⟨chosen, hchosen, rfl⟩ := List.mem_map.1 hoverload
    exact exists_placed_of_mem_choice hfront hback hchosen
  case length_eq =>
    rw [leftPositions_append hfront hback, ← hunplaced, List.length_map,
      omissions_placed hfront hback, List.length_map, length_choices]
  case head_eq =>
    obtain ⟨first, hfirst, hpositions⟩ :=
      Option.map_eq_some_iff.1 (List.head?_map ▸ head_choices (placedFrom 0 front))
    rw [omissions_placed hfront hback, List.head?_map, hfirst, range_length_append, ← hpositions]
    exact congrArg some (positions_append first _)
  case isCall =>
    intro overload hoverload call hcall
    rw [omissions_placed hfront hback] at hoverload
    obtain ⟨chosen, hchosen, rfl⟩ := List.mem_map.1 hoverload
    obtain ⟨n, rfl⟩ := (accepts_choice_iff hback hchosen).1 hcall
    exact (isCall_append_iff hfront hback).2 ⟨_, List.mem_map_of_mem hchosen, n, rfl⟩
  case existsUnique => exact fun call hcall => existsUnique_accepts hfront hback hcall

end Property

/-! ### Families -/

namespace Callable

variable {τ : Type} {void : τ} {promise : τ → τ} {path : String} {c : Callable τ}
  {signatures : List (Signature τ)}

/-- The parameter lists of the overloads of a family. -/
def parameterLists (kind : SignatureKind) (signatures : List (Signature τ)) :
    List (List (Property τ)) :=
  (signatures.filter fun s => s.kind = kind).map fun s => s.parameters

theorem parameterLists_append (kind : SignatureKind) (front back : List (Signature τ)) :
    parameterLists kind (front ++ back) = parameterLists kind front ++ parameterLists kind back := by
  rw [parameterLists, List.filter_append, List.map_append]
  rfl

theorem parameterLists_overloads_self (kind : SignatureKind) (ps : List (Property τ))
    (returns : Property τ) : parameterLists kind (overloads kind ps returns) = Property.omissions ps := by
  have hall : (overloads kind ps returns).filter (fun s => s.kind = kind) = overloads kind ps returns :=
    List.filter_eq_self.2 fun s hs => by
      obtain ⟨kept, -, rfl⟩ := List.mem_map.1 hs
      exact decide_eq_true rfl
  rw [parameterLists, hall, overloads, List.map_map]
  exact List.map_id' _

theorem parameterLists_overloads_of_ne {kind kind' : SignatureKind} (h : kind' ≠ kind)
    (ps : List (Property τ)) (returns : Property τ) :
    parameterLists kind (overloads kind' ps returns) = [] := by
  have hnone : (overloads kind' ps returns).filter (fun s => s.kind = kind) = [] :=
    List.filter_eq_nil_iff.2 fun s hs => by
      obtain ⟨kept, -, rfl⟩ := List.mem_map.1 hs
      simpa using h
  rw [parameterLists, hnone, List.map_nil]

theorem kind_of_mem_overloads {kind : SignatureKind} {ps : List (Property τ)} {returns : Property τ}
    {s : Signature τ} (h : s ∈ overloads kind ps returns) : s.kind = kind := by
  obtain ⟨kept, -, rfl⟩ := List.mem_map.1 h
  rfl

/-- Promises come before callbacks. -/
theorem Expanded.pairwise (h : Expanded void promise path c signatures) :
    signatures.Pairwise fun s s' => s.kind = .callback → s'.kind ≠ .promise := by
  have hone (kind : SignatureKind) (ps : List (Property τ)) (returns : Property τ) :
      (overloads kind ps returns).Pairwise fun s s' => s.kind = .callback → s'.kind ≠ .promise :=
    List.pairwise_of_forall_mem_list fun s hs s' hs' => by
      rw [kind_of_mem_overloads hs, kind_of_mem_overloads hs']
      rintro rfl
      decide
  cases h with
  | sync _ => exact hone ..
  | callbackOnly _ _ _ => exact hone ..
  | both _ _ _ _ =>
    refine List.pairwise_append.2 ⟨hone .., hone .., fun s hs s' hs' hcallback => ?_⟩
    rw [kind_of_mem_overloads hs] at hcallback
    cases hcallback

end Callable

namespace ApiType

/-- The parameter list of a family of overloads, for the families that a function type has: the
visible parameters, and for the callback family the callback after them, which is required. -/
def familyParameters? (kind : SignatureKind) : ApiType → Option (List (Property ApiType))
  | .function parameters _ completion callbackOnly =>
    match kind with
    | .sync => if completion.isNone then some (Property.visible parameters) else none
    | .promise =>
      if completion.isSome && !callbackOnly then some (Property.visible parameters) else none
    | .callback => completion.map fun callback => Property.visible parameters ++ [callback.required]
  | _ => none

/-- The overloads of each family, and of no other, are those of its parameter list. -/
theorem parameterLists_of_expand {t : ApiType} {path : String}
    {signatures : List (Signature ApiType)} (h : t.expand path = .ok signatures)
    (kind : SignatureKind) :
    Callable.parameterLists kind signatures =
      (t.familyParameters? kind).elim [] Property.omissions := by
  cases t with
  | function parameters returns completion callbackOnly =>
    have hexpanded := Callable.expanded_of_expand h
    cases completion with
    | none =>
      cases hexpanded with
      | sync _ =>
        cases kind with
        | sync => exact Callable.parameterLists_overloads_self ..
        | promise | callback => exact Callable.parameterLists_overloads_of_ne (by decide) ..
      | callbackOnly hcompletion _ _ => cases hcompletion
      | both hcompletion _ _ _ => cases hcompletion
    | some callback =>
      cases hexpanded with
      | sync hcompletion => cases hcompletion
      | callbackOnly hcompletion _ honly =>
        cases hcompletion
        cases honly
        cases kind with
        | callback => exact Callable.parameterLists_overloads_self ..
        | sync | promise => exact Callable.parameterLists_overloads_of_ne (by decide) ..
      | both hcompletion _ honly _ =>
        cases hcompletion
        cases honly
        rw [Callable.parameterLists_append]
        cases kind with
        | sync =>
          rw [Callable.parameterLists_overloads_of_ne (by decide),
            Callable.parameterLists_overloads_of_ne (by decide)]
          rfl
        | promise =>
          rw [Callable.parameterLists_overloads_self,
            Callable.parameterLists_overloads_of_ne (by decide), List.append_nil]
          rfl
        | callback =>
          rw [Callable.parameterLists_overloads_of_ne (by decide),
            Callable.parameterLists_overloads_self, List.nil_append]
          rfl
  | _ =>
    cases h
    rfl

/-- Promises come before callbacks. -/
theorem pairwise_of_expand {t : ApiType} {path : String} {signatures : List (Signature ApiType)}
    (h : t.expand path = .ok signatures) :
    signatures.Pairwise fun s s' => s.kind = .callback → s'.kind ≠ .promise := by
  cases t with
  | function parameters returns completion callbackOnly =>
    exact (Callable.expanded_of_expand h).pairwise
  | _ =>
    cases h
    exact .nil

/-- **The overloads of a function cover the ways of calling it.** Promises come before callbacks, every
overload belongs to a family of the function, and each family covers the calls of its parameter list:
it accepts these calls, each by exactly one overload, and no others. It has two to the number of
left-optional parameters overloads, of which the first leaves nothing out. -/
theorem expand_covers {t : ApiType} {path : String} {signatures : List (Signature ApiType)}
    (h : t.expand path = .ok signatures) :
    (signatures.Pairwise fun s s' => s.kind = .callback → s'.kind ≠ .promise) ∧
    (∀ s ∈ signatures, (t.familyParameters? s.kind).isSome) ∧
    ∀ kind, ∀ ps ∈ t.familyParameters? kind,
      ∃ overloads, Property.Covers ps (Callable.parameterLists kind signatures) overloads := by
  refine ⟨pairwise_of_expand h, fun s hs => ?_, fun kind ps hps => ?_⟩
  · have hlisted : s.parameters ∈ Callable.parameterLists s.kind signatures :=
      List.mem_map_of_mem (List.mem_filter.2 ⟨hs, decide_eq_true rfl⟩)
    rw [parameterLists_of_expand h] at hlisted
    cases hfamily : t.familyParameters? s.kind with
    | none =>
      rw [hfamily] at hlisted
      exact absurd hlisted List.not_mem_nil
    | some ps => rfl
  · rw [parameterLists_of_expand h, Option.mem_def.1 hps]
    exact ⟨_, Property.covers_omissions ps⟩

/-- An asynchronous function with an optional parameter on either side of a required one. -/
def interleaved : ApiType :=
  .function [{ optional := true, name := "a", type := any }, .plain "b" any,
      { optional := true, name := "c", type := any }]
    none (some { optional := true, name := "done", type := .function [] none none false }) false

/-- As a promise two ways of calling it have an overload, as with the callback after them all optional
parameters are left-optional. -/
theorem expand_interleaved :
    ∃ signatures, interleaved.expand "x.f" = .ok signatures ∧
      (signatures.map fun s => (s.kind, s.parameters.map fun p => (p.name, p.optional))) =
        [(.promise, [("a", false), ("b", false), ("c", true)]),
          (.promise, [("b", false), ("c", true)]),
          (.callback, [("a", false), ("b", false), ("c", false), ("done", false)]),
          (.callback, [("b", false), ("c", false), ("done", false)]),
          (.callback, [("a", false), ("b", false), ("done", false)]),
          (.callback, [("b", false), ("done", false)])] ∧
      (signatures.Pairwise fun s s' => s.kind = .callback → s'.kind ≠ .promise) ∧
      (∀ s ∈ signatures, (interleaved.familyParameters? s.kind).isSome) ∧
      ∀ kind, ∀ ps ∈ interleaved.familyParameters? kind,
        ∃ overloads, Property.Covers ps (Callable.parameterLists kind signatures) overloads :=
  ⟨_, rfl, rfl, @expand_covers interleaved "x.f" _ rfl⟩

end ApiType

end ApiTypings
