import PgAcorn.Build.Nearest
import PgAcorn.Library.Machine
import PgAcorn.Library.Reselect

/-! A diversified reverse edge to a full range.

In memory the heuristic works on node numbers, on disk on positions in the range.
`droppedSlot_eq` and `droppedOccupant_eq` say that both drop what the library's
`diverseVictim` names, so they make the same choice of corresponding inputs
(`diversifiedEdge`). -/
namespace PgAcorn.Build
open Library

section
variable {I V Q D : Type} [CDouble D]

/-! ### By node number -/

theorem MemBuild.droppedSlot_eq (mb : MemBuild V) (dist : V → V → D) (nbr : Fin mb.nNodes)
    (occ : List (Fin mb.nNodes)) (new : Fin mb.nNodes) :
    mb.droppedSlot dist nbr occ new =
      diverseVictim (fun a b => dist (mb.nodes a).vec (mb.nodes b).vec) (mb.far dist nbr) occ new := by
  have hcands : sortAscending Prod.snd ((occ ++ [new]).map fun y => (y, mb.far dist nbr y)) =
      (rivals (mb.far dist nbr) occ new).map fun y => (y, mb.far dist nbr y) :=
    sortAscending_map (fun y => (y, mb.far dist nbr y)) (fun _ => rfl) _
  have hkept : memSelectDiverse mb dist
      ((rivals (mb.far dist nbr) occ new).map fun y => (y, mb.far dist nbr y)) occ.length =
        diverse (fun a b => dist (mb.nodes a).vec (mb.nodes b).vec) (mb.far dist nbr) occ.length
          (rivals (mb.far dist nbr) occ new) := by
    have hmap : diverse (mb.apart dist) Prod.snd occ.length
        ((rivals (mb.far dist nbr) occ new).map fun y => (y, mb.far dist nbr y)) =
          (diverse (fun a b => dist (mb.nodes a).vec (mb.nodes b).vec) (mb.far dist nbr) occ.length
            (rivals (mb.far dist nbr) occ new)).map fun y => (y, mb.far dist nbr y) :=
      diverse_map _ (fun _ _ => rfl) (fun _ => rfl) _
    rw [memSelectDiverse, hmap, List.map_map]
    exact List.map_id _
  rw [droppedSlot, hcands, hkept]
  rfl

/-! ### By position -/

/-- Positions in a list without duplicates. -/
theorem zipIdx_map {κ : Type} [DecidableEq κ] (vec : κ → V) {l : List κ} (hnodup : l.Nodup) :
    (l.map vec).zipIdx = l.map fun y => (vec y, l.idxOf y) := by
  refine List.ext_getElem (by simp) fun i hi hi' => ?_
  rw [List.length_map] at hi'
  simp [List.getElem_zipIdx, hnodup.idxOf_getElem i hi']

/-- The first position with a property is the first element with it. -/
theorem find?_range_eq_findIdx? {κ : Type} {l : List κ} {p : Nat → Bool} {q : κ → Bool}
    (h : ∀ (j : Nat) (hj : j < l.length), p j = q l[j]) :
    (List.range l.length).find? p = l.findIdx? q := by
  refine Option.ext fun i => ?_
  rw [List.find?_range_eq_some, List.findIdx?_eq_some_iff_getElem, List.mem_range]
  constructor
  · rintro ⟨hp, hi, hbefore⟩
    refine ⟨hi, h i hi ▸ hp, fun j hj => ?_⟩
    have := hbefore j hj
    rw [h j (hj.trans hi)] at this
    simpa using this
  · rintro ⟨hi, hp, hbefore⟩
    refine ⟨(h i hi).trans hp, hi, fun j hj => ?_⟩
    have := hbefore j hj
    rw [h j (hj.trans hi)]
    simpa using this

theorem droppedOccupant_eq {κ : Type} [DecidableEq κ] (dist : V → V → D) (b : V) (vec : κ → V)
    {occ : List κ} {x : κ} (hnodup : (occ ++ [x]).Nodup) :
    droppedOccupant dist b (occ.map vec) (vec x) =
      diverseVictim (fun a c => dist (vec a) (vec c)) (fun y => dist b (vec y)) occ x := by
  have hzip : (occ.map vec ++ [vec x]).zipIdx =
      (occ ++ [x]).map fun y => (vec y, (occ ++ [x]).idxOf y) := by
    rw [← zipIdx_map vec hnodup, List.map_append]
    rfl
  have horder : sortAscending (fun c : V × Nat => dist b c.1) (occ.map vec ++ [vec x]).zipIdx =
      (rivals (fun y => dist b (vec y)) occ x).map fun y => (vec y, (occ ++ [x]).idxOf y) := by
    rw [hzip]
    exact sortAscending_map _ (fun _ => rfl) _
  obtain ⟨kept, hkept⟩ : ∃ kept, diverse (fun a c => dist (vec a) (vec c)) (fun y => dist b (vec y))
      occ.length (rivals (fun y => dist b (vec y)) occ x) = kept := ⟨_, rfl⟩
  have hdiverse : diverse (fun a c : V × Nat => dist a.1 c.1) (fun c => dist b c.1) occ.length
      ((rivals (fun y => dist b (vec y)) occ x).map fun y => (vec y, (occ ++ [x]).idxOf y)) =
        kept.map fun y => (vec y, (occ ++ [x]).idxOf y) := by
    rw [← hkept]
    exact diverse_map _ (fun _ _ => rfl) (fun _ => rfl) _
  have hsub : ∀ y ∈ kept, y ∈ occ ++ [x] := fun y hy => by
    rw [← hkept] at hy
    have := (diverse_subperm _).subset hy
    rwa [rivals_perm.mem_iff, ← (List.perm_append_singleton x occ).mem_iff] at this
  -- a position stands for what is there
  have hany : ∀ (j : Nat) (hj : j < (occ ++ [x]).length),
      (kept.map fun y => (vec y, (occ ++ [x]).idxOf y)).any (fun c => decide (c.2 = j)) =
        decide ((occ ++ [x])[j] ∈ kept) := by
    intro j hj
    rw [List.any_map, Bool.eq_iff_iff, List.any_eq_true, decide_eq_true_iff]
    constructor
    · rintro ⟨y, hy, heq⟩
      have hidx : (occ ++ [x]).idxOf y = j := of_decide_eq_true heq
      subst hidx
      rwa [List.getElem_idxOf]
    · intro hmem
      exact ⟨_, hmem, decide_eq_true (hnodup.idxOf_getElem j hj)⟩
  have hlast : (kept.map fun y => (vec y, (occ ++ [x]).idxOf y)).any
      (fun c => decide (c.2 = occ.length)) = decide (x ∈ kept) := by
    rw [hany occ.length (by simp), List.getElem_concat_length rfl]
  have hfirst : ((List.range occ.length).find? fun j =>
      !(kept.map fun y => (vec y, (occ ++ [x]).idxOf y)).any fun c => decide (c.2 = j)) =
        occ.findIdx? fun y => decide (y ∉ kept) := by
    apply find?_range_eq_findIdx?
    intro j hj
    rw [hany j (by simp; omega), List.getElem_append_left hj]
    exact decide_not.symm
  unfold droppedOccupant diverseVictim
  dsimp only
  rw [horder, List.length_map, hdiverse, hkept, hlast, hfirst]
  exact if_congr decide_eq_true_iff rfl rfl

/-! ### The same choice -/

/-- No eligible one, no furthest. -/
theorem furthest_fst_eq_none {xs : List (Bool × D)} (h : ∀ x ∈ xs, x.1 = false) :
    (furthest xs).1 = none := by
  rcases furthest_spec xs with ⟨heq, -⟩ | ⟨k, d, hk, -⟩
  · rw [heq]
  · cases h _ (List.mem_of_getElem? hk)

/-- Among members the heuristic decides, in memory. -/
theorem MemBuild.memVictim_diverse {mb : MemBuild V} (dist : V → V → D) (nbr : Fin mb.nNodes)
    {part : Option Nat} {occ : List (Fin mb.nNodes)}
    (hpart : ∀ p, part = some p → ∀ y ∈ occ, payloadPartition (mb.nodes y).filterVal = p)
    (new : Fin mb.nNodes) : mb.memVictim dist true nbr part occ new =
      diverseVictim (fun a b => dist (mb.nodes a).vec (mb.nodes b).vec) (mb.far dist nbr) occ new := by
  have hnone : part.bind (mb.nonmemberSlot dist nbr occ) = none := by
    cases part with
    | none => rfl
    | some p =>
      refine furthest_fst_eq_none fun x hx => ?_
      obtain ⟨y, hy, rfl⟩ := List.mem_map.mp hx
      simp [hpart p rfl y hy]
  rw [memVictim, hnone, Option.none_or, if_pos rfl, droppedSlot_eq]

/-- Valid identifiers are known by their slots. -/
theorem eq_of_slots {l l' : List Tid} (hvalid : ∀ t ∈ l', t.isValid = true)
    (h : l.map tidSlot = l'.map tidSlot) : l = l' := by
  induction l' generalizing l with
  | nil => exact List.map_eq_nil_iff.mp h
  | cons t l' ih =>
    obtain ⟨u, l, rfl, hu, hl⟩ := List.map_eq_cons_iff.mp h
    rw [tidSlot, tidSlot, if_pos (hvalid t (by simp))] at hu
    split at hu
    · rw [Option.some.inj hu, ih (fun t' ht' => hvalid t' (List.mem_cons_of_mem t ht')) hl]
    · cases hu

/-- Elements on disk that correspond to nodes in memory. -/
structure Corresponds (mb : MemBuild V) (r : Relation V Q) (tid : Fin mb.nNodes → Tid)
    (ids : List (Fin mb.nNodes)) : Prop where
  distinct : (ids.map tid).Nodup
  element : ∀ y ∈ ids, ∃ e, r.element (tid y) = some e ∧ e.vec = (mb.nodes y).vec ∧
    e.filterVal = (mb.nodes y).filterVal

/-- Among members the heuristic decides, on disk. -/
theorem diskVictim_diverse {mb : MemBuild V} {oc : Opclass V Q D} {n : ElementTuple V}
    {nbr : Fin mb.nNodes} (hn : n.vec = (mb.nodes nbr).vec) {part : Option Nat}
    {occ : List (Fin mb.nNodes)} {new : Fin mb.nNodes} (hnodup : (occ ++ [new]).Nodup)
    (hpart : ∀ p, part = some p → ∀ y ∈ occ, payloadPartition (mb.nodes y).filterVal = p)
    {tid : Fin mb.nNodes → Tid} {elem : Tid → ElementTuple V}
    (helem : ∀ y ∈ occ ++ [new], (elem (tid y)).vec = (mb.nodes y).vec ∧
      (elem (tid y)).filterVal = (mb.nodes y).filterVal) :
    diskVictim oc true part n elem (occ.map tid) (tid new) =
      diverseVictim (fun a b => oc.dist (mb.nodes a).vec (mb.nodes b).vec) (mb.far oc.dist nbr) occ
        new := by
  have hnone : part.bind (nonmemberSlot oc.dist n ((occ.map tid).map elem)) = none := by
    cases part with
    | none => rfl
    | some p =>
      refine furthest_fst_eq_none fun x hx => ?_
      obtain ⟨e, he, rfl⟩ := List.mem_map.mp hx
      obtain ⟨t, ht, rfl⟩ := List.mem_map.mp he
      obtain ⟨y, hy, rfl⟩ := List.mem_map.mp ht
      simp [(helem y (List.mem_append_left _ hy)).2, hpart p rfl y hy]
  have hvecs : (((occ.map tid).map elem).map ElementTuple.vec) = occ.map fun y => (mb.nodes y).vec := by
    rw [List.map_map, List.map_map]
    exact List.map_congr_left fun y hy => (helem y (List.mem_append_left _ hy)).1
  rw [diskVictim, fullRangeSlot, hnone, Option.none_or, inferiorSlot, if_pos rfl, hvecs,
    (helem new (by simp)).1, hn]
  exact droppedOccupant_eq oc.dist _ (fun y => (mb.nodes y).vec) hnodup

/-- **A diversified edge to a full range drops exactly one candidate**, and disk and memory
drop the same: the range then holds what was selected, each kept occupant in its slot, and
the new element in the slot of the occupant that was dropped. -/
theorem diversifiedEdge (hD : Ordered D) (mb : MemBuild V) (oc : Opclass V Q D) (nbr : Fin mb.nNodes)
    (base : Nat) (part : Option Nat) (slots : List (Option (Fin mb.nNodes)))
    (occ : List (Fin mb.nNodes)) (new : Fin mb.nNodes) (hpos : 1 ≤ occ.length)
    (hfits : base + occ.length ≤ slots.length)
    (hfull : (slots.drop base).take occ.length = occ.map some) (hnodup : occ.Nodup)
    (hnew : new ∉ occ)
    (hpart : ∀ p, part = some p → ∀ y ∈ occ, payloadPartition (mb.nodes y).filterVal = p) :
    ∃ keeps dropped after, Reselection (fun a b => oc.dist (mb.nodes a).vec (mb.nodes b).vec)
        (mb.far oc.dist nbr) occ new keeps dropped after ∧
      mb.memAddReverseEdge oc.dist true nbr base occ.length part slots new =
        some (putRange slots base (after.map some)) ∧
      ∀ (s : Disk I V Q) (ins : Inserting V) (n : ElementTuple V) (tid : Fin mb.nNodes → Tid)
        (lc base' : Nat) (o : Offer) (tids : List Tid) (fuel : Nat) (entry : Option (InlineEntry Q)),
        HasRange s n ins lc o tids base' → n.vec = (mb.nodes nbr).vec →
        ins.value = (mb.nodes new).vec → ins.diversify = true → o.part = part →
        o.rangeLen = occ.length → (tids.drop base').take occ.length = occ.map tid →
        Corresponds mb s.relation tid (occ ++ [new]) →
        (entry.isSome = true → ChainEnds s.fixed.2 fuel n.neighbortid) →
        ∃ s', (addReverseEdgeAtLayer oc fuel ins (tid new) lc entry o).exec s = some ((), s') ∧
          s'.slotsOf = Function.update s.slotsOf n.neighbortid
            (some (putRange tids base' (after.map tid))) := by
  obtain ⟨keeps, dropped, after, hafter, hoffer⟩ := offer_diverse hD hpos hnodup hnew
    (MemBuild.memVictim_diverse oc.dist nbr hpart new)
  have hboth : (occ ++ [new]).Nodup :=
    (List.perm_append_singleton new occ).nodup_iff.mpr (List.nodup_cons.mpr ⟨hnew, hnodup⟩)
  refine ⟨keeps, dropped, after, hafter, ?_, ?_⟩
  · have hstray : ∀ occ' : List (Fin mb.nNodes),
        mb.replacedSlot oc.dist true nbr part occ' new ≠ some (-1) := fun occ' hstray => by
      rcases MemBuild.replacedSlot_eq mb oc.dist true nbr part occ' new with heq | ⟨-, hfalse, -⟩
      · rw [heq] at hstray
        obtain ⟨j, -, hj⟩ := Option.map_eq_some_iff.mp hstray
        simp only [Int.ofNat_eq_natCast] at hj
        omega
      · cases hfalse
    rw [MemBuild.memAddReverseEdge_offer hfits fun _ => hstray _, hfull, hoffer]
  · rintro s ins n tid lc base' o tids fuel entry h hn hvalue hdiversify hpart' hlen hrange hcorr hchain
    have helem : ∀ y ∈ occ ++ [new], s.relation.element (tid y) =
        some ((s.relation.element (tid y)).getD n) ∧
        ((s.relation.element (tid y)).getD n).vec = (mb.nodes y).vec ∧
        ((s.relation.element (tid y)).getD n).filterVal = (mb.nodes y).filterVal := fun y hy => by
      obtain ⟨e, he, hvec, hfilter⟩ := hcorr.element y hy
      rw [he]
      exact ⟨rfl, hvec, hfilter⟩
    have hvalid : ∀ y ∈ occ ++ [new], (tid y).isValid = true := fun y hy =>
      (Relation.isValid_of_item (Relation.element_some.mp (helem y hy).1)).1
    have hinj : ∀ y ∈ occ, tid y = tid new → y = new := fun y hy heq => by
      have := hcorr.distinct
      rw [List.map_append, List.nodup_append] at this
      exact absurd heq (this.2.2 _ (List.mem_map_of_mem hy) _ (by simp))
    have hslots : ∀ ids : List (Fin mb.nNodes), (∀ y ∈ ids, (tid y).isValid = true) →
        (ids.map tid).map tidSlot = (ids.map some).map (Option.map tid) := fun ids hids => by
      rw [List.map_map, List.map_map]
      exact List.map_congr_left fun y hy => if_pos (hids y hy)
    obtain ⟨s', range', hexec, -, hslots', -, hoffer'⟩ :=
      @addReverseEdgeAtLayer_exec I V Q D _ oc ins n (fun t => (s.relation.element t).getD n) s lc
        base' o tids (tid new) fuel entry h (hvalid new (by simp)) (fun t ht => by
          rw [hlen, hrange] at ht
          obtain ⟨y, hy, rfl⟩ := List.mem_map.mp (mem_validTids.mp ht).1
          exact (helem y (List.mem_append_left _ hy)).1)
        (by rw [hvalue, (helem new (by simp)).2.1]) hchain
    refine ⟨s', hexec, ?_⟩
    have hocc : occupants (occ.map some) = occ := occupants_map_some occ
    rw [hlen, hrange, hslots occ fun y hy => hvalid y (List.mem_append_left _ hy), hdiversify,
      hpart'] at hoffer'
    have hsame : offer (diskVictim oc true part n fun t => (s.relation.element t).getD n)
        ((occ.map some).map (Option.map tid)) (tid new) =
          (offer (mb.memVictim oc.dist true nbr part) (occ.map some) new).map (Option.map tid) := by
      refine offer_map tid (by rwa [hocc]) ?_
      rw [hocc, MemBuild.memVictim_diverse oc.dist nbr hpart new]
      exact diskVictim_diverse hn hboth hpart fun y hy => (helem y hy).2
    rw [hsame, hoffer] at hoffer'
    have hafterValid : ∀ y ∈ after, (tid y).isValid = true := fun y hy => by
      have hmem := hafter.holds.mem_iff.mp hy
      have := (hafter.left.chosen y).mp hmem
      exact hvalid y ((List.perm_append_singleton new occ).mem_iff.mpr (rivals_perm.mem_iff.mp this.1))
    rw [← hslots after hafterValid] at hoffer'
    rwa [eq_of_slots (fun t ht => by
      obtain ⟨y, hy, rfl⟩ := List.mem_map.mp ht
      exact hafterValid y hy) hoffer'] at hslots'

end

/-- The four nodes on disk, with a full range of the first one. -/
def fullDisk : Disk Unit Int Unit where
  relation :=
    { metaPage := ⟨1, 2, 1, 2, 0, false, 2⟩
      pages := [⟨.neighbor ⟨[⟨1, 3⟩, ⟨1, 4⟩, Tid.invalid, Tid.invalid], none⟩ ::
        ([0, 4, 5, -6].map fun x => .element (lineElement x)), 0, 0⟩] }
  history := ⟨[], [], [], [], fun _ _ => []⟩

/-- `|a - b|` between points of a line. -/
def lineClass : Opclass Int Unit Int := ⟨fun a b => |a - b|, fun _ => 8, fun _ => 1, fun _ _ => ()⟩

attribute [local instance] neZero_four

/-- The first node's range with an edge to the fourth. -/
def lineEdge : Option (List (Option (Fin 4))) :=
  fourNodes.memAddReverseEdge lineClass.dist true (0 : Fin 4) 0 2 none
    [some (1 : Fin 4), some (2 : Fin 4), none, none] (3 : Fin 4)

/-- The third node is behind the second and gives way to the fourth. -/
example : lineEdge = some [some 1, some 3, none, none] := by decide +kernel

theorem diversifiedEdge_line : ∃ keeps dropped, ∃ after : List (Fin 4),
    Reselection (fun a b : Fin 4 => lineClass.dist (fourNodes.nodes a).vec (fourNodes.nodes b).vec)
      (fun y : Fin 4 => fourNodes.far lineClass.dist (0 : Fin 4) y) [1, 2] 3 keeps dropped after ∧
    lineEdge = some (putRange [some 1, some 2, none, none] 0 (after.map some)) ∧
    ∃ s', (addReverseEdgeAtLayer lineClass 0 ⟨2, 2, 4, true, true, 0, 0, -6⟩ ⟨1, 5⟩ 0 none
        ⟨⟨1, 2⟩, 0, 2, none⟩).exec fullDisk = some ((), s') ∧
      s'.slotsOf = Function.update fullDisk.slotsOf ⟨1, 1⟩
        (some (putRange [⟨1, 3⟩, ⟨1, 4⟩, Tid.invalid, Tid.invalid] 0
          (after.map fun y => ⟨1, y.val + 2⟩))) := by
  obtain ⟨keeps, dropped, after, h, hmem, hdisk⟩ := diversifiedEdge (I := Unit) ordered_int fourNodes
    lineClass (0 : Fin 4) 0 none [some (1 : Fin 4), some (2 : Fin 4), none, none]
    [(1 : Fin 4), (2 : Fin 4)] (3 : Fin 4) (by decide) (by decide) (by decide) (by decide)
    (by decide : (3 : Fin 4) ∉ [1, 2]) (by simp)
  refine ⟨keeps, dropped, after, h, hmem, ?_⟩
  refine hdisk fullDisk ⟨2, 2, 4, true, true, 0, 0, -6⟩ (lineElement 0)
    (fun y => ⟨1, y.val + 2⟩) 0 0 ⟨⟨1, 2⟩, 0, 2, none⟩
    [⟨1, 3⟩, ⟨1, 4⟩, Tid.invalid, Tid.invalid] 0 none
    ⟨by decide, by decide, by decide, by decide⟩ (by decide) (by decide) rfl rfl rfl (by decide)
    ⟨by decide, ?_⟩ (by simp)
  intro y hy
  have hrivals : ∀ y : Fin 4, y ∈ [1, 2] ++ [(3 : Fin 4)] → y = 1 ∨ y = 2 ∨ y = 3 := by decide
  obtain rfl | rfl | rfl := hrivals y hy
  · exact ⟨lineElement 4, by decide, by decide, by decide⟩
  · exact ⟨lineElement 5, by decide, by decide, by decide⟩
  · exact ⟨lineElement (-6), by decide, by decide, by decide⟩

end PgAcorn.Build
