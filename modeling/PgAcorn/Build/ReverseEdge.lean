import PgAcorn.Build.Select
import PgAcorn.Build.Sound
import PgAcorn.Build.Slots
import PgAcorn.Library.SlotRange

/-! A reverse edge, in memory and on disk.

`acorn_mem_add_reverse_edge` works on the slots of a node and goes by node numbers,
`acorn_add_reverse_edge_at_layer` on the identifiers of a neighbor tuple. Both offer
the new element to a range of slots (`memAddReverseEdge_offer`,
`addReverseEdgeAtLayer_exec`), and of a full range both choose by the same policy; but
the last loop of the former can end without an occupant, and what it writes then is
the slot in front of the range. -/
namespace PgAcorn.Build
open Library

section
variable {I V Q D : Type} [CDouble D]

/-! ### In memory -/

/-- The slot that the last loop finds for an element, counted from the start of the range.
`furthest_j` is `-1` if no occupant is above `-DBL_MAX`. -/
def furthestSlot {κ : Type} (d : κ → D) (occ : List κ) (x : κ) : Option Int :=
  let (j, dj) := furthest (occ.map fun y => (true, d y))
  if CDouble.lt (d x) dj then some ((j.map Int.ofNat).getD (-1)) else none

namespace MemBuild
variable (mb : MemBuild V) (dist : V → V → D)

/-- How far a node is from the one whose slots are updated. -/
def far (nbr y : Fin mb.nNodes) : D := dist (mb.nodes nbr).vec (mb.nodes y).vec

/-- `nonmember_slot` of a full range. -/
def nonmemberSlot (nbr : Fin mb.nNodes) (occ : List (Fin mb.nNodes)) (part : Nat) : Option Nat :=
  (furthest (occ.map fun y =>
    (!decide (payloadPartition (mb.nodes y).filterVal = part), mb.far dist nbr y))).1

/-- The occupant that is dropped for the new node, if the heuristic keeps that one. -/
def droppedSlot (nbr : Fin mb.nNodes) (occ : List (Fin mb.nNodes)) (new : Fin mb.nNodes) : Option Nat :=
  let cands := sortAscending Prod.snd ((occ ++ [new]).map fun y => (y, mb.far dist nbr y))
  let kept := memSelectDiverse mb dist cands occ.length
  if new ∈ kept then occ.findIdx? fun y => decide (y ∉ kept) else none

/-- The slot of a full range that goes to the new node, counted from the range's start. -/
def replacedSlot (diversify : Bool) (nbr : Fin mb.nNodes) (part : Option Nat)
    (occ : List (Fin mb.nNodes)) (new : Fin mb.nNodes) : Option Int :=
  match part.bind (mb.nonmemberSlot dist nbr occ) with
  | some j => some j
  | none =>
    if diversify then (mb.droppedSlot dist nbr occ new).map Int.ofNat
    else furthestSlot (mb.far dist nbr) occ new

/-- The slot that goes to the new node. -/
def edgeSlot (diversify : Bool) (nbr : Fin mb.nNodes) (part : Option Nat)
    (range : List (Option (Fin mb.nNodes))) (new : Fin mb.nNodes) : Option Int :=
  if some new ∈ range then none
  else match range.findIdx? fun slot => slot.isNone with
    | some j => some j
    | none => mb.replacedSlot dist diversify nbr part (occupants range) new

/-- `acorn_mem_add_reverse_edge`, of the slots of `nbr`; a write outside of them is none of
its. -/
def memAddReverseEdge (diversify : Bool) (nbr : Fin mb.nNodes) (base count : Nat)
    (part : Option Nat) (slots : List (Option (Fin mb.nNodes))) (new : Fin mb.nNodes) :
    Option (List (Option (Fin mb.nNodes))) :=
  match mb.edgeSlot dist diversify nbr part ((slots.drop base).take count) new with
  | none => some slots
  | some j =>
    let k := base + j
    if 0 ≤ k ∧ k < slots.length then some (slots.set k.toNat (some new)) else none

/-- The policy of a full range, where it names an occupant. -/
def memVictim (diversify : Bool) (nbr : Fin mb.nNodes) (part : Option Nat)
    (occ : List (Fin mb.nNodes)) (new : Fin mb.nNodes) : Option Nat :=
  (part.bind (mb.nonmemberSlot dist nbr occ)).or
    (if diversify then mb.droppedSlot dist nbr occ new
    else furthestVictim (mb.far dist nbr) occ new)

end MemBuild

/-! ### Ranges of slots -/

section
variable {α : Type}

/-- A range of slots with other contents. -/
def putRange (slots : List α) (base : Nat) (range : List α) : List α :=
  slots.take base ++ range ++ slots.drop (base + range.length)

/-- A range with one slot overwritten, if there is one. -/
def setAt (range : List α) (target : Option Nat) (a : α) : List α :=
  match target with
  | none => range
  | some j => range.set j a

theorem putRange_self {slots : List α} {base count : Nat} (h : base + count ≤ slots.length) :
    putRange slots base ((slots.drop base).take count) = slots := by
  have hlen : ((slots.drop base).take count).length = count := by
    rw [List.length_take, List.length_drop]
    omega
  rw [putRange, hlen, List.append_assoc, ← List.drop_drop, List.take_append_drop,
    List.take_append_drop]

/-- A range is overwritten slot by slot. -/
theorem putRange_set {slots range : List α} {base j : Nat} {a : α} (hj : j < range.length)
    (h : base + range.length ≤ slots.length) :
    (putRange slots base range).set (base + j) a = putRange slots base (range.set j a) := by
  have hlen : (slots.take base).length = base := by
    rw [List.length_take]
    omega
  rw [putRange, putRange, List.length_set, List.append_assoc, List.set_append_right _ _ (by omega),
    hlen, Nat.add_sub_cancel_left, List.set_append_left _ _ hj, ← List.append_assoc]

theorem drop_take_putRange {slots range : List α} {base : Nat}
    (h : base + range.length ≤ slots.length) :
    ((putRange slots base range).drop base).take range.length = range := by
  have hlen : (slots.take base).length = base := by
    rw [List.length_take]
    omega
  rw [putRange, List.append_assoc, List.drop_append_of_le_length (by omega),
    List.drop_eq_nil_of_le (by omega), List.nil_append, List.take_left']
  rfl

theorem putRange_putRange {slots range range' : List α} {base : Nat}
    (h : base + range.length ≤ slots.length) (hlen : range'.length = range.length) :
    putRange (putRange slots base range) base range' = putRange slots base range' := by
  have htake : (slots.take base).length = base := by
    rw [List.length_take]
    omega
  have hfront : (putRange slots base range).take base = slots.take base := by
    rw [putRange, List.append_assoc, List.take_append_of_le_length (by omega),
      List.take_of_length_le (by omega)]
  have hback : (putRange slots base range).drop (base + range'.length) =
      slots.drop (base + range'.length) := by
    rw [putRange, hlen, List.drop_append_of_le_length (by rw [List.length_append]; omega),
      List.drop_eq_nil_of_le (by rw [List.length_append]; omega), List.nil_append]
  rw [putRange, hfront, hback, putRange]

theorem length_putRange {slots range : List α} {base : Nat}
    (h : base + range.length ≤ slots.length) : (putRange slots base range).length = slots.length := by
  rw [putRange, List.length_append, List.length_append, List.length_take, List.length_drop]
  omega

/-- Nothing else changes. -/
theorem getElem?_putRange_of_not {slots range : List α} {base i : Nat}
    (h : base + range.length ≤ slots.length) (hi : ¬ (base ≤ i ∧ i < base + range.length)) :
    (putRange slots base range)[i]? = slots[i]? := by
  have htake : (slots.take base).length = base := by
    rw [List.length_take]
    omega
  by_cases hlt : i < base
  · rw [putRange, List.append_assoc, List.getElem?_append_left (by omega),
      List.getElem?_take_of_lt hlt]
  · rw [putRange, List.getElem?_append_right (by rw [List.length_append]; omega), List.getElem?_drop,
      List.length_append, htake]
    congr 1
    omega

theorem drop_putRange {slots range : List α} {base k : Nat}
    (h : base + range.length ≤ slots.length) (hk : base + range.length ≤ k) :
    (putRange slots base range).drop k = slots.drop k := by
  apply List.ext_getElem?
  intro i
  rw [List.getElem?_drop, List.getElem?_drop, getElem?_putRange_of_not h (by omega)]

end

/-! ### An edge is an offer -/

theorem furthestVictim_lt {κ : Type} {d : κ → D} {occ : List κ} {x : κ} {j : Nat}
    (h : furthestVictim d occ x = some j) : j < occ.length := by
  unfold furthestVictim at h
  dsimp only at h
  split at h
  · have := furthest_lt h
    rwa [List.length_map] at this
  · cases h

/-- The last loop finds the furthest occupant, or the slot in front of the range: then no
occupant is above `-DBL_MAX` and the element is below it. -/
theorem furthestSlot_eq {κ : Type} (d : κ → D) (occ : List κ) (x : κ) :
    furthestSlot d occ x = (furthestVictim d occ x).map Int.ofNat ∨
      (furthestSlot d occ x = some (-1) ∧ CDouble.lt (d x) CDouble.negDblMax = true ∧
        ∀ y ∈ occ, CDouble.lt CDouble.negDblMax (d y) = false) := by
  unfold furthestSlot furthestVictim
  rcases furthest_spec (occ.map fun y => (true, d y)) with ⟨heq, hall⟩ | ⟨j, dj, -, heq, -, -⟩
  · rw [heq]
    dsimp only
    split
    · rename_i hlt
      exact .inr ⟨rfl, hlt, fun y hy => hall (true, d y) (List.mem_map.mpr ⟨y, hy, rfl⟩) rfl⟩
    · exact .inl rfl
  · rw [heq]
    dsimp only
    split <;> exact .inl rfl

namespace MemBuild
variable {mb : MemBuild V} {dist : V → V → D} {diversify : Bool} {nbr new : Fin mb.nNodes}
  {part : Option Nat} {occ : List (Fin mb.nNodes)}

theorem memVictim_lt {j : Nat} (h : mb.memVictim dist diversify nbr part occ new = some j) :
    j < occ.length := by
  unfold memVictim at h
  obtain h | ⟨-, h⟩ := Option.or_eq_some_iff.mp h
  · obtain ⟨p, -, h⟩ := Option.bind_eq_some_iff.mp h
    have := furthest_lt h
    rwa [List.length_map] at this
  · split at h
    · unfold droppedSlot at h
      dsimp only at h
      split at h
      · exact (List.findIdx?_eq_some_iff_getElem.mp h).1
      · cases h
    · exact furthestVictim_lt h

/-- What is chosen is an occupant, or the slot in front of the range: then no occupant is
above `-DBL_MAX` and the new node is below it. -/
theorem replacedSlot_eq (mb : MemBuild V) (dist : V → V → D) (diversify : Bool)
    (nbr : Fin mb.nNodes) (part : Option Nat) (occ : List (Fin mb.nNodes)) (new : Fin mb.nNodes) :
    mb.replacedSlot dist diversify nbr part occ new =
        (mb.memVictim dist diversify nbr part occ new).map Int.ofNat ∨
      (mb.replacedSlot dist diversify nbr part occ new = some (-1) ∧ diversify = false ∧
        part.bind (mb.nonmemberSlot dist nbr occ) = none ∧
        CDouble.lt (mb.far dist nbr new) CDouble.negDblMax = true ∧
        ∀ y ∈ occ, CDouble.lt CDouble.negDblMax (mb.far dist nbr y) = false) := by
  unfold replacedSlot memVictim
  cases hpart : part.bind (mb.nonmemberSlot dist nbr occ) with
  | some j => exact .inl rfl
  | none =>
    rw [Option.none_or]
    cases diversify with
    | true => exact .inl rfl
    | false =>
      dsimp only
      rw [if_neg Bool.false_ne_true, if_neg Bool.false_ne_true]
      rcases furthestSlot_eq (mb.far dist nbr) occ new with heq | ⟨heq, hlt, hall⟩
      · exact .inl heq
      · exact .inr ⟨heq, rfl, rfl, hlt, hall⟩

/-- The slot of an edge is the slot of an offer, unless the last loop ends without an
occupant. -/
theorem edgeSlot_eq {range : List (Option (Fin mb.nNodes))} (hstray : none ∉ range →
      mb.replacedSlot dist diversify nbr part (occupants range) new ≠ some (-1)) :
    mb.edgeSlot dist diversify nbr part range new =
      (offeredSlot (mb.memVictim dist diversify nbr part) range new).map Int.ofNat := by
  unfold edgeSlot offeredSlot
  split
  · rfl
  · cases hfree : range.findIdx? fun slot => slot.isNone with
    | some j => rfl
    | none =>
      have hnone : none ∉ range := fun hn => by cases List.findIdx?_eq_none_iff.mp hfree none hn
      rw [Option.none_or]
      rcases replacedSlot_eq mb dist diversify nbr part (occupants range) new with heq | ⟨heq, -⟩
      · exact heq
      · exact absurd heq (hstray hnone)

variable {base count : Nat} {slots : List (Option (Fin mb.nNodes))}

/-- **An edge in memory is an offer** to its range, unless the last loop ends without an
occupant. -/
theorem memAddReverseEdge_offer (h : base + count ≤ slots.length)
    (hstray : none ∉ (slots.drop base).take count →
      mb.replacedSlot dist diversify nbr part (occupants ((slots.drop base).take count)) new ≠
        some (-1)) :
    mb.memAddReverseEdge dist diversify nbr base count part slots new =
      some (putRange slots base
        (offer (mb.memVictim dist diversify nbr part) ((slots.drop base).take count) new)) := by
  have hlen : ((slots.drop base).take count).length = count := by
    rw [List.length_take, List.length_drop]
    omega
  unfold memAddReverseEdge offer
  rw [edgeSlot_eq hstray]
  cases hslot : offeredSlot (mb.memVictim dist diversify nbr part) ((slots.drop base).take count) new with
  | none => simp only [Option.map_none, putRange_self h]
  | some j =>
    have hj : j < ((slots.drop base).take count).length := offeredSlot_lt (fun _ => memVictim_lt) hslot
    dsimp only [Option.map_some]
    rw [if_pos (by simp only [Int.ofNat_eq_natCast]; omega), Int.ofNat_eq_natCast, ← Int.natCast_add,
      Int.toNat_natCast, ← putRange_set hj (by omega), putRange_self h]

end MemBuild

/-! ### On disk -/

/-- A slot with its occupant. -/
def tidSlot (t : Tid) : Option Tid := if t.isValid then some t else none

namespace Disk

/-- What no reverse edge changes: the elements, and how the chains of chunks go on. -/
def fixed (s : Disk I V Q) : (Tid → Option (ElementTuple V)) × (Tid → Option Tid) :=
  (s.relation.element, fun t => ((s.relation.item t).bind IndexTuple.chunk?).map InlineChunk.next)

/-- The slots of a neighbor tuple. -/
def slotsOf (s : Disk I V Q) (t : Tid) : Option (List Tid) :=
  (s.relation.neighbor t).map NeighborTuple.tids

theorem fixed_update (s : Disk I V Q) {f : IndexTuple V Q → IndexTuple V Q} (hf : KeepsKind f)
    (t : Tid) : (s.withRelation (s.relation.update t f)).fixed = s.fixed := by
  refine Prod.ext (funext fun u => (hf.sameShape s.relation t).element u) (funext fun u => ?_)
  show ((((s.relation.update t f).item u).bind IndexTuple.chunk?).map InlineChunk.next) = _
  rw [Relation.item_update]
  by_cases hu : u = t
  · subst hu
    show _ = ((s.relation.item u).bind IndexTuple.chunk?).map InlineChunk.next
    rw [if_pos rfl]
    cases hx : s.relation.item u with
    | none => rfl
    | some x =>
      rw [Option.map_some, Option.bind_some, Option.bind_some]
      cases hc : (f x).chunk? with
      | some c =>
        obtain ⟨c', hc', hnext⟩ := hf.next x c hc
        rw [hc', Option.map_some, Option.map_some, hnext]
      | none =>
        cases hc' : x.chunk? with
        | none => rfl
        | some c' =>
          obtain ⟨c'', hc'', -⟩ := hf.entries x c' hc'
          rw [hc''] at hc
          cases hc
  · rw [if_neg hu]
    rfl

theorem slotsOf_setSlot {s : Disk I V Q} {t : Tid} {tids : List Tid} (h : s.slotsOf t = some tids)
    (k : Nat) (e : Tid) : (s.withRelation (s.relation.update t (setSlot k e))).slotsOf =
      Function.update s.slotsOf t (some (tids.set k e)) := by
  obtain ⟨n, hn, rfl⟩ := Option.map_eq_some_iff.mp h
  funext u
  unfold slotsOf withRelation Relation.neighbor
  rw [Relation.item_update]
  by_cases hu : u = t
  · subst hu
    rw [if_pos rfl, Relation.neighbor_some.mp hn, Function.update_self]
    rfl
  · rw [if_neg hu, Function.update_of_ne hu]

theorem slotsOf_setEntry (s : Disk I V Q) (t : Tid) (idx : Nat) (entry : InlineEntry Q) :
    (s.withRelation (s.relation.update t (setEntry idx entry))).slotsOf = s.slotsOf := by
  funext u
  unfold slotsOf withRelation Relation.neighbor
  rw [Relation.item_update]
  by_cases hu : u = t
  · subst hu
    rw [if_pos rfl]
    rcases s.relation.item u with _ | _ | _ | _ <;> rfl
  · rw [if_neg hu]

end Disk

/-! #### The inline entry of a slot -/

/-- The chain from `t` ends after at most so many chunks. -/
def ChainEnds (next : Tid → Option Tid) : Nat → Tid → Prop
  | 0, _ => False
  | k + 1, t => ∃ u, next t = some u ∧ (u.isValid = true → ChainEnds next k u)

/-- Writing an inline entry changes neither slots nor what is fixed. -/
theorem t2InlineWriteEntry_keeps_slots (fuel : Nat) (t : Tid) (slot : Nat) (entry : InlineEntry Q) :
    (t2InlineWriteEntry fuel t slot entry : Prog (Disk I V Q) Unit).Keeps
      fun s => (s.fixed, s.slotsOf) := by
  induction fuel generalizing t with
  | zero => trivial
  | succ fuel ih =>
    rw [t2InlineWriteEntry]
    refine .bind (.read _) fun c => ?_
    split
    · apply Prog.Keeps.lift
      intro s b s' h
      split at h
      · split at h
        · cases h
          exact Prod.ext (s.fixed_update (keepsKind_setEntry _ _) _) (s.slotsOf_setEntry _ _ _)
        · cases h
      · cases h
    · split
      · exact .pure _
      · exact ih c.next

/-- The walk to an entry ends if the chain does. -/
theorem t2InlineWriteEntry_exec {s : Disk I V Q} {fuel : Nat} {t : Tid}
    (h : ChainEnds s.fixed.2 fuel t) (slot : Nat) (entry : InlineEntry Q) :
    ∃ s', (t2InlineWriteEntry fuel t slot entry).exec s = some ((), s') ∧ s'.fixed = s.fixed ∧
      s'.slotsOf = s.slotsOf := by
  suffices hends : ∃ s', (t2InlineWriteEntry fuel t slot entry).exec s = some ((), s') by
    obtain ⟨s', hexec⟩ := hends
    have hkeeps := (t2InlineWriteEntry_keeps_slots fuel t slot entry).exec hexec
    exact ⟨s', hexec, (Prod.mk.inj hkeeps).1, (Prod.mk.inj hkeeps).2⟩
  induction fuel generalizing t with
  | zero => exact h.elim
  | succ fuel ih =>
    obtain ⟨u, hu, hnext⟩ := h
    obtain ⟨c, hc, rfl⟩ := Option.map_eq_some_iff.mp hu
    have hread : (readChunk t).exec s = some (c, s) := Prog.exec_read hc
    rw [t2InlineWriteEntry]
    simp only [Prog.bind_eq, Prog.exec_bind, hread, Option.bind_some]
    split
    · rename_i hcovers
      have hidx : slot - c.start < c.entries.length := by omega
      refine ⟨s.withRelation (s.relation.update t (setEntry (slot - c.start) entry)),
        Prog.exec_lift ?_⟩
      rw [hc]
      dsimp only
      rw [if_pos hidx]
    · split
      · exact ⟨s, rfl⟩
      · rename_i hvalid
        exact ih (hnext (by simpa using hvalid))

/-! #### The slot of an edge -/

/-- The policy of a full range, of elements that are known. -/
def diskVictim (oc : Opclass V Q D) (diversify : Bool) (part : Option Nat) (n : ElementTuple V)
    (elem : Tid → ElementTuple V) (occ : List Tid) (e : Tid) : Option Nat :=
  fullRangeSlot oc.dist diversify part n (occ.map elem) (elem e).vec

variable {oc : Opclass V Q D} {ins : Inserting V} {n : ElementTuple V} {elem : Tid → ElementTuple V}

theorem diskVictim_lt {diversify : Bool} {part : Option Nat} {occ : List Tid} {e : Tid} {j : Nat}
    (h : diskVictim oc diversify part n elem occ e = some j) : j < occ.length := by
  unfold diskVictim fullRangeSlot at h
  obtain h | ⟨-, h⟩ := Option.or_eq_some_iff.mp h
  · obtain ⟨p, -, h⟩ := Option.bind_eq_some_iff.mp h
    have := furthest_lt h
    rwa [List.length_map, List.length_map] at this
  · unfold inferiorSlot at h
    split at h
    · unfold droppedOccupant at h
      dsimp only at h
      split at h
      · have := List.mem_range.mp (List.mem_of_find?_eq_some h)
        rwa [List.length_map, List.length_map] at this
      · cases h
    · dsimp only at h
      split at h
      · have := furthest_lt h
        rwa [List.length_map, List.length_map] at this
      · cases h

/-- A full range is read once or twice, and the policy decides. -/
theorem replaceSlot_exec {s : Disk I V Q} {tids : List Tid}
    (h : ∀ t ∈ tids, s.relation.element t = some (elem t)) (part : Option Nat) :
    (replaceSlot oc ins n tids part).exec s =
      some (fullRangeSlot oc.dist ins.diversify part n (tids.map elem) ins.value, s) := by
  have hread : (tids.mapM readElement).exec s = some (tids.map elem, s) := readElements_exec h
  unfold replaceSlot fullRangeSlot
  cases part with
  | none =>
    simp only [Prog.pure_eq, Prog.bind_eq, Prog.pure_bind, Prog.exec_bind, hread, Option.bind_some]
    rfl
  | some p =>
    simp only [Prog.pure_eq, Prog.bind_eq, Prog.exec_bind, hread, Option.bind_some]
    cases nonmemberSlot oc.dist n (tids.map elem) p with
    | some j => rfl
    | none =>
      show (((tids.mapM readElement).bind _).exec s) = _
      rw [Prog.exec_bind, hread]
      rfl

theorem tidSlot_isNone {t : Tid} : (tidSlot t).isNone = !t.isValid := by
  unfold tidSlot
  cases t.isValid <;> rfl

theorem some_mem_slots {e : Tid} (he : e.isValid = true) {range : List Tid} :
    some e ∈ range.map tidSlot ↔ e ∈ range := by
  rw [List.mem_map]
  constructor
  · rintro ⟨t, ht, heq⟩
    unfold tidSlot at heq
    split at heq
    · exact Option.some.inj heq ▸ ht
    · cases heq
  · intro h
    exact ⟨e, h, if_pos he⟩

theorem occupants_slots (range : List Tid) : occupants (range.map tidSlot) = validTids range := by
  rw [occupants, List.filterMap_map, validTids, ← List.filterMap_eq_filter]
  congr 1

/-- The slot of an offer to a range on disk, empty or full. -/
theorem offeredSlot_slots {range : List Tid} {e : Tid} (he : e.isValid = true) (hnew : e ∉ range)
    (victim : List Tid → Tid → Option Nat) :
    offeredSlot victim (range.map tidSlot) e =
      (range.findIdx? fun t => !t.isValid).or (victim (validTids range) e) := by
  have hidx : (range.map tidSlot).findIdx? (fun slot => slot.isNone) =
      range.findIdx? fun t => !t.isValid := by
    rw [List.findIdx?_map]
    congr 1
    funext t
    exact tidSlot_isNone
  unfold offeredSlot
  rw [if_neg (mt (some_mem_slots he).mp hnew), hidx, occupants_slots]

/-! #### An edge -/

/-- The range of an edge: where it starts in its neighbor tuple. -/
structure HasRange (s : Disk I V Q) (n : ElementTuple V) (ins : Inserting V) (lc : Nat) (o : Offer)
    (tids : List Tid) (base : Nat) : Prop where
  element : s.relation.element o.target = some n
  slots : s.slotsOf n.neighbortid = some tids
  start : hnswNeighborStart ins.mEff n.level lc + o.rangeOff = base
  fits : base + o.rangeLen ≤ tids.length

/-- The write of one slot. -/
theorem writeSlot_exec {s : Disk I V Q} (lc off : Nat) {k : Nat} {w : ReverseEdge} {tup : NeighborTuple Q}
    (htup : s.relation.neighbor w.nbrtid = some tup) (hk : k + 1 ≤ tup.tids.length)
    (hstart : w.start + (w.target : Int) = k) :
    ∃ s', (writeSlot lc off w).exec s = some ((), s') ∧
      s'.relation = s.relation.update w.nbrtid (setSlot k w.e) := by
  have hone : slotRange tup.tids (w.start + w.target) 1 = some ((tup.tids.drop k).take 1) := by
    rw [hstart]
    exact slotRange_eq hk
  refine ⟨((s.putSlot w.nbrtid lc (w.start + w.target).toNat (off + w.target) w.e).access
    ⟨w.nbrtid, lc, w.start + w.target, 1, false⟩).noteWrite
      ⟨w, (tup.tids.drop w.start.toNat).take w.copied.length⟩, Prog.exec_lift ?_, ?_⟩
  · rw [htup]
    dsimp only
    rw [hone]
  · rw [hstart, Int.toNat_natCast]
    rfl

/-- Phase 2: the chosen slot of a range is written, and its inline entry. -/
theorem writeTarget_exec {s : Disk I V Q} {nbrtid : Tid} {tids : List Tid} {base len fuel : Nat}
    (htids : s.slotsOf nbrtid = some tids) (hfits : base + len ≤ tids.length) (lc off : Nat) (e : Tid)
    (part : Option Nat) (diversify : Bool) (entry : Option (InlineEntry Q)) (target : Option Nat) :
    (∀ j, target = some j → j < len) →
    (entry.isSome = true → ChainEnds s.fixed.2 fuel nbrtid) →
    ∃ s', (match target with
      | none => pure ()
      | some j => (writeSlot lc off ⟨nbrtid, base, (tids.drop base).take len, j, e, part,
          diversify⟩).bind fun _ =>
        match entry with
        | some entry => if lc = 0 then t2InlineWriteEntry fuel nbrtid (off + j) entry else pure ()
        | none => pure () : Prog (Disk I V Q) Unit).exec s = some ((), s') ∧
      s'.fixed = s.fixed ∧ s'.slotsOf = Function.update s.slotsOf nbrtid
        (some (putRange tids base (setAt ((tids.drop base).take len) target e))) := by
  intro htarget hchain
  have hlen : ((tids.drop base).take len).length = len := by
    rw [List.length_take, List.length_drop]
    omega
  cases target with
  | none =>
    refine ⟨s, rfl, rfl, ?_⟩
    rw [setAt, putRange_self hfits, ← htids, Function.update_eq_self]
  | some j =>
    have hj := htarget j rfl
    obtain ⟨tup, htup, rfl⟩ := Option.map_eq_some_iff.mp htids
    obtain ⟨s₂, hwrite, hrel⟩ := writeSlot_exec lc off
      (w := ⟨nbrtid, base, (tup.tids.drop base).take len, j, e, part, diversify⟩) htup
      (show base + j + 1 ≤ tup.tids.length by omega) rfl
    have hfixed : s₂.fixed = s.fixed := by
      have h := s.fixed_update (keepsKind_setSlot (base + j) e) nbrtid
      rwa [Disk.fixed, Disk.withRelation, ← hrel] at h
    have hslots : s₂.slotsOf = Function.update s.slotsOf nbrtid
        (some (putRange tup.tids base (((tup.tids.drop base).take len).set j e))) := by
      have h := Disk.slotsOf_setSlot htids (base + j) e
      rw [← putRange_set (by omega) (by omega), putRange_self hfits, ← h]
      funext t
      rw [Disk.slotsOf, Disk.slotsOf, hrel]
      rfl
    simp only [Prog.exec_bind, hwrite, Option.bind_some]
    cases entry with
    | none => exact ⟨s₂, rfl, hfixed, hslots⟩
    | some entry =>
      dsimp only
      split
      · rw [← hfixed] at hchain
        obtain ⟨s₃, hentry, hfixed', hslots'⟩ := t2InlineWriteEntry_exec (hchain rfl) (off + j) entry
        exact ⟨s₃, hentry, hfixed'.trans hfixed, hslots'.trans hslots⟩
      · exact ⟨s₂, rfl, hfixed, hslots⟩

/-- **An edge on disk is an offer** to its range, and changes nothing else. -/
theorem addReverseEdgeAtLayer_exec {s : Disk I V Q} {lc base : Nat} {o : Offer} {tids : List Tid}
    {e : Tid} {fuel : Nat} {entry : Option (InlineEntry Q)} (h : HasRange s n ins lc o tids base)
    (he : e.isValid = true)
    (helem : ∀ t ∈ validTids ((tids.drop base).take o.rangeLen),
      s.relation.element t = some (elem t))
    (hvalue : ins.value = (elem e).vec)
    (hchain : entry.isSome = true → ChainEnds s.fixed.2 fuel n.neighbortid) :
    ∃ s' range', (addReverseEdgeAtLayer oc fuel ins e lc entry o).exec s = some ((), s') ∧
      s'.fixed = s.fixed ∧
      s'.slotsOf = Function.update s.slotsOf n.neighbortid (some (putRange tids base range')) ∧
      range'.length = o.rangeLen ∧
      range'.map tidSlot = offer (diskVictim oc ins.diversify o.part n elem)
        (((tids.drop base).take o.rangeLen).map tidSlot) e := by
  obtain ⟨hn, htids, hstart, hfits⟩ := h
  obtain ⟨tup, htup, rfl⟩ := Option.map_eq_some_iff.mp htids
  have hlen : ((tup.tids.drop base).take o.rangeLen).length = o.rangeLen := by
    rw [List.length_take, List.length_drop]
    omega
  have hread : (readElement o.target).exec s = some (n, s) := Prog.exec_read hn
  have hcopy : (copySlots n.neighbortid lc (base : Int) o.rangeLen false).exec s =
      some ((tup.tids.drop base).take o.rangeLen,
        s.access ⟨n.neighbortid, lc, (base : Int), o.rangeLen, false⟩) := by
    apply Prog.exec_lift
    rw [htup, Option.bind_some, slotRange_eq hfits]
  generalize hs₁ : s.access ⟨n.neighbortid, lc, (base : Int), o.rangeLen, false⟩ = s₁ at hcopy
  have hrel : s₁.relation = s.relation := by rw [← hs₁]; rfl
  have hfixed : s₁.fixed = s.fixed := by rw [← hs₁]; rfl
  have hslots : s₁.slotsOf = s.slotsOf := by rw [← hs₁]; rfl
  rw [← hfixed] at hchain
  rw [← hslots] at htids
  unfold addReverseEdgeAtLayer
  simp only [Prog.bind_eq, Prog.exec_bind, hread, Option.bind_some, hstart, hcopy]
  split
  · rename_i hmem
    refine ⟨s₁, (tup.tids.drop base).take o.rangeLen, rfl, hfixed, ?_, hlen, ?_⟩
    · rw [← hslots, putRange_self hfits, ← htids, Function.update_eq_self]
    · rw [offer, offeredSlot, if_pos ((some_mem_slots he).mpr hmem)]
  rename_i hnew
  have hslot := offeredSlot_slots he hnew (diskVictim oc ins.diversify o.part n elem)
  generalize htarget : offeredSlot (diskVictim oc ins.diversify o.part n elem)
    (((tup.tids.drop base).take o.rangeLen).map tidSlot) e = target at hslot
  have hj : ∀ j, target = some j → j < o.rangeLen := by
    rintro j rfl
    have := offeredSlot_lt (fun _ => diskVictim_lt) htarget
    rwa [List.length_map, hlen] at this
  obtain ⟨s', hexec, hfixed', hslots'⟩ := writeTarget_exec htids hfits lc o.rangeOff e o.part
    ins.diversify entry target hj hchain
  refine ⟨s', setAt ((tup.tids.drop base).take o.rangeLen) target e, ?_, hfixed'.trans hfixed,
    hslots ▸ hslots', ?_, ?_⟩
  rotate_left
  · cases target with
    | none => exact hlen
    | some j => exact List.length_set.trans hlen
  · rw [offer, htarget]
    cases target with
    | none => rfl
    | some j =>
      dsimp only [setAt]
      rw [List.map_set, tidSlot, if_pos he]
  cases hfree : ((tup.tids.drop base).take o.rangeLen).findIdx? fun t => !t.isValid with
  | some j =>
    rw [hfree, Option.some_or] at hslot
    subst hslot
    exact hexec
  | none =>
    have hfull : validTids ((tup.tids.drop base).take o.rangeLen) =
        (tup.tids.drop base).take o.rangeLen :=
      validTids_eq_self fun t ht => by simpa using List.findIdx?_eq_none_iff.mp hfree t ht
    rw [hfull] at helem hslot
    have hreplace := @replaceSlot_exec I V Q D _ oc ins n elem s₁ _
      (fun t ht => (congrFun (congrArg Relation.element hrel) t).trans (helem t ht)) o.part
    dsimp only
    rw [Prog.exec_bind, hreplace]
    rw [hfree, Option.none_or, diskVictim, ← hvalue] at hslot
    subst hslot
    exact hexec

end

end PgAcorn.Build
