import PgAcorn.Build.MemInsert
import PgAcorn.Build.Nearest

/-! The two halves of layer 0, in memory.

A node's payload half is for members of its own partition (`fellow`). Every edge back that an
insert notes is for one range: a layer other than 0 or the global half, or, from members to
members, the payload half (`EdgeFor`). An edge that is made stays in its range unless the last
loop of `acorn_mem_add_reverse_edge` ends without an occupant, and it takes the slot of a
stranger before that of a member unless no stranger is above `-DBL_MAX` (`EdgeMeets`). -/
namespace PgAcorn.Build
open Library

section
variable {V D : Type} [CDouble D] {mb : MemBuild V}

/-! ### What edges are noted -/

/-- Nodes of one partition. -/
def MemBuild.fellow (mb : MemBuild V) (id y : Fin mb.nNodes) : Bool :=
  decide (payloadPartition (mb.nodes y).filterVal = payloadPartition (mb.nodes id).filterVal)

/-- The edges back to a new node, each for a range of its target. -/
inductive EdgeFor (new : Fin mb.nNodes) : RevEdge mb.nNodes → Prop
  | layer {lc : Nat} {t : Fin mb.nNodes} (hl : lc ≤ (mb.nodes t).level) :
    EdgeFor new (layerEdge lc mb.mEff t)
  | payload {t : Fin mb.nNodes} (ht : mb.fellow new t = true) :
    EdgeFor new (payloadEdge (payloadPartition (mb.nodes new).filterVal) t)

/-- Entry points as `memUpdateEntries` keeps them. -/
structure EntriesOk (g : MemGraph mb) : Prop where
  entry : ∀ id level, g.entry = some (id, level) → level = (mb.nodes id).level
  partEntry : ∀ part id, g.partEntry part = some id → payloadPartition (mb.nodes id).filterVal = part

/-- Only slots of `new` have changed. -/
structure OnlyOwn (new : Fin mb.nNodes) (g g' : MemGraph mb) : Prop where
  nbr : ∀ id, id ≠ new → g'.nbr id = g.nbr id
  entry : g'.entry = g.entry
  partEntry : g'.partEntry = g.partEntry
  pushed : g'.pushed = g.pushed

variable {g g' : MemGraph mb} {new : Fin mb.nNodes}

theorem OnlyOwn.refl (new : Fin mb.nNodes) (g : MemGraph mb) : OnlyOwn new g g :=
  ⟨fun _ _ => rfl, rfl, rfl, rfl⟩

theorem OnlyOwn.put (h : OnlyOwn new g g') {slots : List (Option (Fin mb.nNodes))}
    (hlen : slots.length = (g'.nbr new).length) : OnlyOwn new g (g'.put new slots hlen) :=
  ⟨fun id hid => (Function.update_of_ne hid _ _).trans (h.nbr id hid), h.entry, h.partEntry, h.pushed⟩

theorem memWriteSlots_yields (start : Int) (sel : List (Fin mb.nNodes)) :
    (memWriteSlots new start sel).Yields (OnlyOwn new g) fun _ => True := by
  apply Prog.Yields.lift
  intro g' b g'' hg' hop
  split at hop
  · cases hop
    exact ⟨hg'.put _, trivial⟩
  · cases hop

omit [CDouble D] in
/-- A search answers nodes as it meets them. -/
theorem memSearch_yields {M : Fin mb.nNodes → Prop}
    {search : MemGraph mb → Option (Found (Fin mb.nNodes) D)}
    (h : ∀ g' found, OnlyOwn new g g' → search g' = some found → ∀ c ∈ found.results, M c.1) :
    (memSearch search).Yields (OnlyOwn new g) fun cands => ∀ c ∈ cands, M c.1 := by
  have hread : (Prog.read fun g' => some (search g')).Yields (OnlyOwn new g) fun found =>
      ∀ r, found = some r → ∀ c ∈ r.results, M c.1 := by
    refine .read fun g' found hg' hfound r hr => h g' r hg' ?_
    rw [← hr]
    exact Option.some.inj hfound
  refine .bind hread fun found hfound => ?_
  cases found with
  | none => trivial
  | some r => exact hfound r rfl

variable {H : PairingHeap} {dist : V → V → D} {fuel : Nat} {o : MemSettings}

/-- What is chosen was a candidate. -/
theorem mem_of_memChoose {cands : List (Fin mb.nNodes × D)} {mMax : Nat} {t : Fin mb.nNodes}
    (h : t ∈ memChoose dist o cands mMax) : ∃ c ∈ cands, c.1 = t := by
  unfold memChoose at h
  split at h
  · obtain ⟨c, hc, rfl⟩ := List.mem_map.mp h
    exact ⟨c, (diverse_subperm cands).subset hc, rfl⟩
  · obtain ⟨c, hc, rfl⟩ := List.mem_map.mp h
    exact ⟨c, List.mem_of_mem_take hc, rfl⟩

/-- The payload half is filled from the partition. -/
theorem memPayloadCands_yields (hg : EntriesOk g) :
    (memPayloadCands H dist fuel o new (payloadPartition (mb.nodes new).filterVal)).Yields
      (OnlyOwn new g) fun cands => ∀ c ∈ cands, mb.fellow new c.1 = true := by
  refine .bind (Q := fun ep => ∀ id, ep = some id → mb.fellow new id = true) (.read ?_) ?_
  · intro g' ep hg' hep id hid
    refine decide_eq_true (hg.partEntry _ id ?_)
    rw [← hg'.partEntry, ← hid]
    exact Option.some.inj hep
  · intro ep hep
    split
    · intro c hc
      cases hc
    · rename_i id hid
      have hid : ep = some id := by
        split at hid
        · cases hid
        · exact hid
      refine @memSearch_yields V D mb g new (fun u => mb.fellow new u = true) _ fun g' found _ hfound => ?_
      have hfound : (g'.build.partition dist (mb.nodes new).vec (payloadPartition
        (mb.nodes new).filterVal)).search H ⟨o.efc, false, 0⟩ fuel id true = some found := hfound
      exact Terrain.search_holds (M := fun u : Fin mb.nNodes => mb.fellow new u = true)
        (fun _ => hep id hid) (fun u _ ht _ => ht) hfound

/-- **Both halves**: the edges back go to global halves, and from members to members. -/
theorem memWireHalves_yields (hg : EntriesOk g) (cands : List (Fin mb.nNodes × D)) :
    (memWireHalves H dist fuel o new cands).Yields (OnlyOwn new g) fun rev =>
      ∀ r ∈ rev, EdgeFor new r := by
  refine .bind (memWriteSlots_yields _ _) fun _ _ => ?_
  refine .bind (@memPayloadCands_yields V D _ mb g new H dist fuel o hg) fun pcands hpcands => ?_
  refine .bind (memWriteSlots_yields _ _) fun _ _ r hr => ?_
  obtain hr | hr := List.mem_append.mp hr
  · obtain ⟨t, ht, rfl⟩ := List.mem_map.mp hr
    obtain ⟨c, hc, rfl⟩ := mem_of_memChoose ht
    exact .payload (hpcands c (List.mem_of_mem_filter hc))
  · obtain ⟨t, -, rfl⟩ := List.mem_map.mp hr
    exact .layer (Nat.zero_le _)

/-- One layer, searched from a node that has it. -/
theorem memWireLayer_yields (hg : EntriesOk g) (hpayload : o.payloadEdges = true)
    {epId : Fin mb.nNodes} {lc : Nat} (hep : lc ≤ (mb.nodes epId).level) :
    (memWireLayer H dist fuel o new epId lc).Yields (OnlyOwn new g) fun r =>
      lc ≤ (mb.nodes r.1).level ∧ ∀ e ∈ r.2, EdgeFor new e := by
  have hsearch : (memSearch fun g => g.build.memSearchLayer H dist fuel epId (mb.nodes new).vec lc
      o.efc : Prog (MemGraph mb) _).Yields (OnlyOwn new g) fun cands =>
        ∀ c ∈ cands, lc ≤ (mb.nodes c.1).level := by
    refine @memSearch_yields V D mb g new (fun u => lc ≤ (mb.nodes u).level) _ fun g' found _ hfound => ?_
    have hfound : (g'.build.layer dist (mb.nodes new).vec lc).search H ⟨o.efc, false, 0⟩ fuel epId
      true = some found := hfound
    exact Terrain.search_holds (M := fun u : Fin mb.nNodes => lc ≤ (mb.nodes u).level) (fun _ => hep)
      (fun u hu _ _ => of_decide_eq_true (p := lc ≤ (mb.nodes u).level) hu) hfound
  refine .bind hsearch fun cands hcands => ?_
  have hnext : lc ≤ (mb.nodes ((cands.head?.map Prod.fst).getD epId)).level := by
    cases cands with
    | nil => exact hep
    | cons c cs => exact hcands c (by simp)
  dsimp only
  split
  · exact (memWireHalves_yields hg cands).bind fun rev hrev => ⟨hnext, hrev⟩
  · rename_i hnot
    have h0 : lc ≠ 0 := fun h0 => hnot ⟨h0, hpayload⟩
    rw [t2LayerM_pos (by omega)]
    refine .bind (memWriteSlots_yields _ _) fun _ _ => ⟨hnext, fun r hr => ?_⟩
    obtain ⟨t, ht, rfl⟩ := List.mem_map.mp hr
    obtain ⟨c, hc, rfl⟩ := mem_of_memChoose ht
    exact .layer (hcands c hc)

theorem memWireLayers_yields (hg : EntriesOk g) (hpayload : o.payloadEdges = true)
    {epId : Fin mb.nNodes} {lc : Nat} (hep : lc ≤ (mb.nodes epId).level) :
    (memWireLayers H dist fuel o new lc epId).Yields (OnlyOwn new g) fun rev =>
      ∀ r ∈ rev, EdgeFor new r := by
  induction lc generalizing epId with
  | zero => exact .bind (memWireLayer_yields hg hpayload hep) fun r hr => hr.2
  | succ lc ih =>
    refine .bind (memWireLayer_yields hg hpayload hep) fun r hr => ?_
    refine .bind (ih (Nat.le_of_succ_le hr.1)) fun rest hrest e he => ?_
    exact (List.mem_append.mp he).elim (hr.2 e) (hrest e)

/-- **What an insert notes** are edges for ranges of their targets; so far it has written its own
slots only. -/
theorem memWire_yields (hg : EntriesOk g) (hpayload : o.payloadEdges = true) :
    (memWire H dist fuel o new).Yields (OnlyOwn new g) fun rev => ∀ r ∈ rev, EdgeFor new r := by
  have hread : (Prog.read fun g => some g.entry : Prog (MemGraph mb) _).Yields (OnlyOwn new g) fun e =>
      ∀ id level, e = some (id, level) → level = (mb.nodes id).level := by
    refine .read fun g' e hg' he id level hid => hg.entry id level ?_
    rw [← hg'.entry, ← hid]
    exact Option.some.inj he
  refine .bind hread fun entry hentry => ?_
  rcases entry with _ | ⟨entryId, entryLevel⟩
  · intro r hr
    cases hr
  have hlevel := hentry entryId entryLevel rfl
  dsimp only
  split
  · rename_i habove
    have hdescend : (memGreedyDescend dist fuel entryId (mb.nodes new).vec entryLevel
        (mb.nodes new).level : Prog (MemGraph mb) _).Yields (OnlyOwn new g) fun epId =>
          (mb.nodes new).level ≤ (mb.nodes epId).level := by
      refine greedyDescend_yields (P := fun lc id => lc ≤ (mb.nodes id).level) (fun u => ?_)
        (fun lc u => .read fun g' us _ hus => ?_) _ _ _ _ hlevel.le habove.le
        fun lc u hu => Nat.le_of_succ_le hu
      · trivial
      · by_contra hlow
        rw [if_neg hlow] at hus
        cases hus
    exact hdescend.bind fun epId hep =>
      memWireLayers_yields hg hpayload ((Nat.min_le_right _ _).trans hep)
  · exact memWireLayers_yields hg hpayload ((Nat.min_le_left _ _).trans hlevel.le)

/-! ### An edge that is made -/

/-- The slots of an edge's range. -/
def RevEdge.range (r : RevEdge mb.nNodes) (g : MemGraph mb) : List (Option (Fin mb.nNodes)) :=
  ((g.nbr r.target).drop r.slotBase.toNat).take r.slotCount

/-- The distances decide about a full range: if there are strangers in a payload half, one of them
is above `-DBL_MAX`; and where the furthest of all is to be found, a new node below `-DBL_MAX`
finds an occupant above it. -/
def EdgeMeets (dist : V → V → D) (o : MemSettings) (g : MemGraph mb) (new : Fin mb.nNodes)
    (r : RevEdge mb.nNodes) : Prop :=
  some new ∉ r.range g → none ∉ r.range g →
    (∀ p, r.part = some p →
      StrangersSeen (fun y => decide (payloadPartition (mb.nodes y).filterVal = p))
        (mb.far dist r.target) (occupants (r.range g))) ∧
    (o.diversify = false → (∀ p, r.part = some p → ∀ y ∈ occupants (r.range g),
      payloadPartition (mb.nodes y).filterVal = p) → Clears (mb.far dist r.target) (r.range g) new)

set_option synthInstance.maxSize 400 in
instance (dist : V → V → D) (o : MemSettings) (g : MemGraph mb) (new : Fin mb.nNodes)
    (r : RevEdge mb.nNodes) : Decidable (EdgeMeets dist o g new r) :=
  inferInstanceAs (Decidable (_ → _ → (∀ p ∈ r.part, _) ∧ (_ → (∀ p ∈ r.part, _) → _)))

variable {r : RevEdge mb.nNodes}

/-- The last loop does not end without an occupant. -/
theorem EdgeMeets.not_stray (h : EdgeMeets dist o g new r) (hnew : some new ∉ r.range g)
    (hfull : none ∉ r.range g) : mb.replacedSlot dist o.diversify r.target r.part
      (occupants (r.range g)) new ≠ some (-1) := by
  obtain ⟨hseen, hclears⟩ := h hnew hfull
  intro hstray
  rcases MemBuild.replacedSlot_eq mb dist o.diversify r.target r.part (occupants (r.range g)) new with
    heq | ⟨-, hdiversify, hnonmember, hbelow, hall⟩
  · rw [heq] at hstray
    obtain ⟨j, -, hj⟩ := Option.map_eq_some_iff.mp hstray
    simp only [Int.ofNat_eq_natCast] at hj
    omega
  · -- there is no stranger, so the furthest of all was looked for
    have hmembers : ∀ p, r.part = some p → ∀ y ∈ occupants (r.range g),
        payloadPartition (mb.nodes y).filterVal = p := by
      intro p hp y hy
      rw [hp, Option.bind_some] at hnonmember
      exact of_decide_eq_true ((hseen p hp).members hnonmember y hy)
    obtain ⟨y, hy, habove⟩ := hclears hdiversify hmembers hfull hbelow
    exact absurd (habove.symm.trans (hall y hy)) (by simp)

/-- **An edge that meets the condition** is an offer to its range. -/
theorem memAddEdge_exec (hbase : 0 ≤ r.slotBase)
    (hfits : r.slotBase.toNat + r.slotCount ≤ (g.nbr r.target).length)
    (hmeets : EdgeMeets dist o g new r) :
    ∃ g', (memAddEdge dist o new r).exec g = some ((), g') ∧
      g'.nbr = Function.update g.nbr r.target (putRange (g.nbr r.target) r.slotBase.toNat
        (offer (mb.memVictim dist o.diversify r.target r.part) (r.range g) new)) ∧
      g'.entry = g.entry ∧ g'.partEntry = g.partEntry ∧ g'.pushed = g.pushed := by
  have hadd : mb.memAddReverseEdge dist o.diversify r.target r.slotBase.toNat r.slotCount r.part
      (g.nbr r.target) new = some (putRange (g.nbr r.target) r.slotBase.toNat
        (offer (mb.memVictim dist o.diversify r.target r.part) (r.range g) new)) := by
    by_cases hnew : some new ∈ r.range g
    · -- the edge is there already
      have hslot : mb.edgeSlot dist o.diversify r.target r.part (r.range g) new = none := if_pos hnew
      have hoffer : offer (mb.memVictim dist o.diversify r.target r.part) (r.range g) new = r.range g := by
        rw [offer, offeredSlot, if_pos hnew]
      rw [hoffer, RevEdge.range, putRange_self hfits, MemBuild.memAddReverseEdge]
      rw [RevEdge.range] at hslot
      rw [hslot]
    · exact MemBuild.memAddReverseEdge_offer hfits fun hfull => hmeets.not_stray hnew hfull
  refine ⟨g.put r.target _ (length_memAddReverseEdge dist hadd), Prog.exec_lift ?_, rfl, rfl, rfl, rfl⟩
  rw [if_pos ⟨hbase, hfits⟩]
  split
  · rename_i slots hslots
    obtain rfl := Option.some.inj (hadd.symm.trans hslots)
    rfl
  · rename_i hnone
    rw [hadd] at hnone
    cases hnone

/-! ### What the halves undergo -/

/-- Where the payload half of a node starts. -/
def MemBuild.payloadStart (mb : MemBuild V) (id : Fin mb.nNodes) : Nat :=
  (mb.nodes id).level * mb.mEff + mb.mEff

/-- The payload half of a node. -/
def MemGraph.payloadHalf (g : MemGraph mb) (id : Fin mb.nNodes) : List (Option (Fin mb.nNodes)) :=
  ((g.nbr id).drop (mb.payloadStart id)).take mb.payloadM

/-- The payload halves of the nodes in the graph keep their members. -/
def HalvesKept (g g' : MemGraph mb) : Prop :=
  ∀ id, id.val < g.pushed → MembersKept (mb.fellow id) (g.payloadHalf id) (g'.payloadHalf id)

/-- The slots an edge may change: of one layer or the global half of its target, or, of an edge
with a partition, of the payload half. -/
def RevEdge.May (r : RevEdge mb.nNodes) (i : Nat) : Prop :=
  match r.part with
  | none => ∃ lc ≤ (mb.nodes r.target).level, r.slotBase = hnswNeighborStart mb.mEff (mb.nodes r.target).level lc ∧
    ((mb.nodes r.target).level - lc) * mb.mEff ≤ i ∧ i < ((mb.nodes r.target).level - lc) * mb.mEff + mb.mEff
  | some _ => mb.payloadStart r.target ≤ i ∧ i < mb.payloadStart r.target + mb.payloadM

/-- Only slots of an edge's range have changed. -/
structure StaysInRange (r : RevEdge mb.nNodes) (g g' : MemGraph mb) : Prop where
  others : ∀ id, id ≠ r.target → g'.nbr id = g.nbr id
  slots : ∀ i, ¬ r.May i → (g'.nbr r.target)[i]? = (g.nbr r.target)[i]?

/-- The range of a noted edge is inside its target's slots. -/
theorem EdgeFor.fits (h : EdgeFor new r) (g : MemGraph mb) :
    0 ≤ r.slotBase ∧ r.slotBase.toNat + r.slotCount ≤ (g.nbr r.target).length := by
  cases h with
  | @layer lc t hl =>
    have hend := layer_end_le hl mb.mEff mb.payloadM
    have hwidth : mb.mEff ≤ t2LayerM lc mb.mEff mb.payloadM := by
      unfold t2LayerM t2L0Width
      split <;> omega
    dsimp only [layerEdge]
    rw [hnswNeighborStart_eq hl, Int.toNat_natCast, g.slots]
    exact ⟨Int.natCast_nonneg _, by omega⟩
  | @payload t ht =>
    have hend := layer_end_le (Nat.zero_le (mb.nodes t).level) mb.mEff mb.payloadM
    rw [t2LayerM_zero] at hend
    dsimp only [payloadEdge]
    rw [show ((0 : Int)) = ((0 : Nat) : Int) from rfl, hnswNeighborStart_eq (Nat.zero_le _),
      ← Nat.cast_add, Int.toNat_natCast, g.slots]
    exact ⟨Int.natCast_nonneg _, by omega⟩

/-- The range is what the edge may change. -/
theorem EdgeFor.may (h : EdgeFor new r) {i : Nat} (hlow : r.slotBase.toNat ≤ i)
    (hhigh : i < r.slotBase.toNat + r.slotCount) : r.May i := by
  cases h with
  | @layer lc t hl =>
    dsimp only [layerEdge] at hlow hhigh
    rw [hnswNeighborStart_eq hl, Int.toNat_natCast] at hlow hhigh
    exact ⟨lc, hl, rfl, hlow, hhigh⟩
  | @payload t ht =>
    dsimp only [payloadEdge] at hlow hhigh
    rw [show ((0 : Int)) = ((0 : Nat) : Int) from rfl, hnswNeighborStart_eq (Nat.zero_le _),
      ← Nat.cast_add, Int.toNat_natCast, Nat.sub_zero] at hlow hhigh
    exact ⟨hlow, hhigh⟩

theorem length_range (h : EdgeFor new r) (g : MemGraph mb) : (r.range g).length = r.slotCount := by
  obtain ⟨-, hfits⟩ := h.fits g
  rw [RevEdge.range, List.length_take, List.length_drop]
  omega

/-- The policy of a payload half names a member only among members. -/
theorem memVictim_member {t y : Fin mb.nNodes} {occ : List (Fin mb.nNodes)} {j : Nat}
    (ht : mb.fellow new t = true) (hseen : StrangersSeen (mb.fellow t) (mb.far dist t) occ)
    (hv : mb.memVictim dist o.diversify t (some (payloadPartition (mb.nodes new).filterVal)) occ new =
      some j) (hy : occ[j]? = some y) (hmember : mb.fellow t y = true) :
    ∀ z ∈ occ, mb.fellow t z = true := by
  have hslot : mb.nonmemberSlot dist t occ (payloadPartition (mb.nodes new).filterVal) =
      (furthest (occ.map fun y => (!mb.fellow t y, mb.far dist t y))).1 := by
    unfold MemBuild.nonmemberSlot MemBuild.fellow
    rw [of_decide_eq_true ht]
  rw [MemBuild.memVictim, Option.bind_some, hslot] at hv
  exact hseen.first hv hy hmember

/-- **The payload half of the target** keeps its members: the edge is for another range, or it
offers a member. -/
theorem EdgeFor.half_kept (h : EdgeFor new r) (hmeets : EdgeMeets dist o g new r)
    (hself : g'.nbr r.target = putRange (g.nbr r.target) r.slotBase.toNat
      (offer (mb.memVictim dist o.diversify r.target r.part) (r.range g) new)) :
    MembersKept (mb.fellow r.target) (g.payloadHalf r.target) (g'.payloadHalf r.target) := by
  have hfits := (h.fits g).2
  have hrange := length_range h g
  have hlen : r.slotBase.toNat + (offer (mb.memVictim dist o.diversify r.target r.part) (r.range g)
      new).length ≤ (g.nbr r.target).length := by
    rwa [length_offer, hrange]
  cases h with
  | @layer lc t hl =>
    -- the layer ends before the payload half starts
    have hbound : (layerEdge lc mb.mEff t).slotBase.toNat + mb.mEff ≤ mb.payloadStart t := by
      dsimp only [layerEdge]
      rw [hnswNeighborStart_eq hl, Int.toNat_natCast]
      exact Nat.add_le_add_right (Nat.mul_le_mul_right _ (Nat.sub_le _ _)) _
    have hsame : g'.payloadHalf t = g.payloadHalf t := by
      rw [MemGraph.payloadHalf, show g'.nbr t = _ from hself,
        drop_putRange hlen (by rw [length_offer, hrange]; exact hbound)]
      rfl
    show MembersKept (mb.fellow t) (g.payloadHalf t) (g'.payloadHalf t)
    rw [hsame]
    exact .refl _ _
  | @payload t ht =>
    have hstart : (payloadEdge (payloadPartition (mb.nodes new).filterVal) t).slotBase.toNat =
        mb.payloadStart t := by
      dsimp only [payloadEdge]
      rw [show ((0 : Int)) = ((0 : Nat) : Int) from rfl, hnswNeighborStart_eq (Nat.zero_le _),
        ← Nat.cast_add, Int.toNat_natCast]
      rfl
    have hbefore : (payloadEdge (payloadPartition (mb.nodes new).filterVal) t).range g =
        g.payloadHalf t := by
      rw [RevEdge.range, hstart]
      rfl
    have hafter : g'.payloadHalf t = offer (mb.memVictim dist o.diversify t
        (some (payloadPartition (mb.nodes new).filterVal))) (g.payloadHalf t) new := by
      have hput := drop_take_putRange hlen
      rw [← hself, length_offer, hrange, hstart, hbefore] at hput
      exact hput
    show MembersKept (mb.fellow t) (g.payloadHalf t) (g'.payloadHalf t)
    rw [hafter]
    refine membersKept_offer (decide_eq_true (of_decide_eq_true ht).symm)
      fun hnew hfull j y hv hy hmember => memVictim_member ht ?_ hv hy hmember
    have hseen := (hmeets (hbefore ▸ hnew) (hbefore ▸ hfull)).1 _ rfl
    rw [hbefore, ← of_decide_eq_true ht] at hseen
    exact hseen

/-- **One edge**: it stays in its range, and the payload halves keep their members. -/
theorem EdgeFor.kept (h : EdgeFor new r) (hmeets : EdgeMeets dist o g new r) :
    ∃ g', (memAddEdge dist o new r).exec g = some ((), g') ∧ StaysInRange r g g' ∧ HalvesKept g g' ∧
      (EntriesOk g → EntriesOk g') := by
  obtain ⟨hbase, hfits⟩ := h.fits g
  obtain ⟨g', hexec, hnbr, hentry, hpart, -⟩ := memAddEdge_exec hbase hfits hmeets
  have hself : g'.nbr r.target = putRange (g.nbr r.target) r.slotBase.toNat
      (offer (mb.memVictim dist o.diversify r.target r.part) (r.range g) new) := by
    rw [hnbr, Function.update_self]
  have hother : ∀ id, id ≠ r.target → g'.nbr id = g.nbr id := fun id hid => by
    rw [hnbr, Function.update_of_ne hid]
  have hrange := length_range h g
  refine ⟨g', hexec, ⟨hother, fun i hi => ?_⟩, fun id _ => ?_, fun hg => ⟨?_, ?_⟩⟩
  · rw [hself, getElem?_putRange_of_not (by rwa [length_offer, hrange])]
    rintro ⟨hlow, hhigh⟩
    rw [length_offer, hrange] at hhigh
    exact hi (h.may hlow hhigh)
  · by_cases hid : id = r.target
    · subst hid
      exact h.half_kept hmeets hself
    · rw [MemGraph.payloadHalf, MemGraph.payloadHalf, hother id hid]
      exact .refl _ _
  · rw [hentry]
    exact hg.entry
  · rw [hpart]
    exact hg.partEntry

/-! ### Runs -/

/-- Every edge of a step meets the condition. -/
def BuildMeets (dist : V → V → D) (o : MemSettings)
    (s : MemGraph mb × Option (Fin mb.nNodes × List (RevEdge mb.nNodes))) (a : BatchAction Unit) : Prop :=
  ∀ new r es, a = .item → s.2 = some (new, r :: es) → EdgeMeets dist o s.1 new r

instance (dist : V → V → D) (o : MemSettings) :
    ∀ (s : MemGraph mb × Option (Fin mb.nNodes × List (RevEdge mb.nNodes))) (a : BatchAction Unit),
      Decidable (BuildMeets dist o s a)
  | _, .start _ | _, .finish | (_, none), .item | (_, some (_, [])), .item =>
    .isTrue fun _ _ _ ha hs => by simp at ha hs
  | (g, some (new, r :: _)), .item => decidable_of_iff (EdgeMeets dist o g new r)
    ⟨fun h _ _ _ _ hs => by cases hs; exact h, fun h => h new r _ rfl rfl⟩

/-- Between any two steps of a build. -/
def BuildOk (s : MemGraph mb × Option (Fin mb.nNodes × List (RevEdge mb.nNodes))) : Prop :=
  EntriesOk s.1 ∧ ∀ new es, s.2 = some (new, es) → ∀ r ∈ es, EdgeFor new r

variable {s s' : MemGraph mb × Option (Fin mb.nNodes × List (RevEdge mb.nNodes))}

omit [CDouble D] in
/-- A node that is pushed is the next one. -/
theorem memPushNode_exec {p : Fin mb.nNodes × MemGraph mb} (h : memPushNode.exec g = some p) :
    p.1.val = g.pushed ∧ (∀ id, id ≠ p.1 → p.2.nbr id = g.nbr id) ∧ p.2.entry = g.entry ∧
      p.2.partEntry = g.partEntry := by
  by_cases hroom : g.pushed < mb.nNodes
  · simp only [memPushNode, Prog.lift, Prog.exec, dif_pos hroom] at h
    obtain rfl := Option.some.inj h
    exact ⟨rfl, fun id hid => Function.update_of_ne hid _ _, rfl, rfl⟩
  · simp only [memPushNode, Prog.lift, Prog.exec, dif_neg hroom] at h
    cases h

/-- The next node is pushed and wired; the halves of the nodes before it are as they were. -/
theorem start_kept (hpayload : o.payloadEdges = true) (hg : EntriesOk g)
    {p : (Fin mb.nNodes × List (RevEdge mb.nNodes)) × MemGraph mb}
    (h : ((memBuilding H dist fuel o).start ()).exec g = some p) :
    EntriesOk p.2 ∧ (∀ r ∈ p.1.2, EdgeFor p.1.1 r) ∧ HalvesKept g p.2 := by
  have h : (memPushNode.bind fun new => (memWire H dist fuel o new).bind fun rev =>
    .pure (new, rev)).exec g = some p := h
  rw [Prog.exec_bind] at h
  obtain ⟨⟨new, g₁⟩, hpush, h⟩ := Option.bind_eq_some_iff.mp h
  rw [Prog.exec_bind] at h
  obtain ⟨⟨rev, g₂⟩, hwire, h⟩ := Option.bind_eq_some_iff.mp h
  obtain rfl := Option.some.inj h
  obtain ⟨hnew, hnbr, hentry, hpart⟩ := memPushNode_exec hpush
  dsimp only at hnew hnbr hentry hpart hwire ⊢
  have hg₁ : EntriesOk g₁ := ⟨by rw [hentry]; exact hg.entry, by rw [hpart]; exact hg.partEntry⟩
  obtain ⟨hown, hrev⟩ := (memWire_yields hg₁ hpayload).exec (.refl new g₁) hwire
  refine ⟨⟨?_, ?_⟩, hrev, fun id hid => ?_⟩
  · rw [show g₂.entry = g₁.entry from hown.entry]
    exact hg₁.entry
  · rw [show g₂.partEntry = g₁.partEntry from hown.partEntry]
    exact hg₁.partEntry
  · have hne : id ≠ new := by
      rintro rfl
      omega
    rw [MemGraph.payloadHalf, MemGraph.payloadHalf, (hown.nbr id hne).trans (hnbr id hne)]
    exact .refl _ _

/-- The entry points are updated; no slot changes. -/
theorem finish_kept (hg : EntriesOk g) {p : Unit × MemGraph mb}
    (h : (memUpdateEntries o new).exec g = some p) : EntriesOk p.2 ∧ HalvesKept g p.2 := by
  obtain rfl := Option.some.inj h
  refine ⟨⟨fun id level hentry => ?_, fun part id hpart => ?_⟩, fun id _ => .refl _ _⟩
  · dsimp only at hentry
    split at hentry
    · obtain ⟨rfl, rfl⟩ := Prod.mk.inj (Option.some.inj hentry)
      rfl
    · exact hg.entry id level hentry
  · dsimp only at hpart
    split at hpart
    · by_cases heq : part = payloadPartition (mb.nodes new).filterVal
      · subst heq
        rw [Function.update_self] at hpart
        rw [← Option.some.inj hpart]
      · rw [Function.update_of_ne heq] at hpart
        exact hg.partEntry part id hpart
    · exact hg.partEntry part id hpart

/-- **One step of a build**: the invariant, and what the halves undergo. -/
theorem BuildOk.step (hpayload : o.payloadEdges = true) (hs : BuildOk s) {a : BatchAction Unit}
    (hok : BuildMeets dist o s a) (hstep : (memBuilding H dist fuel o).step s a = some s') :
    BuildOk s' ∧ HalvesKept s.1 s'.1 := by
  obtain ⟨g, pending⟩ := s
  obtain ⟨hg, hedges⟩ := hs
  cases a with
  | start job =>
    cases pending with
    | some p => cases hstep
    | none =>
      obtain ⟨⟨⟨new, rev⟩, g'⟩, hp, rfl⟩ := Option.map_eq_some_iff.mp hstep
      obtain ⟨hentries, hrev, hkept⟩ := start_kept hpayload hg hp
      refine ⟨⟨hentries, fun new' es heq => ?_⟩, hkept⟩
      obtain ⟨rfl, rfl⟩ := Prod.mk.inj (Option.some.inj heq)
      exact hrev
  | item =>
    rcases pending with _ | ⟨new, _ | ⟨r, es⟩⟩
    · cases hstep
    · cases hstep
    · obtain ⟨g', hexec, -, hkept, hentries⟩ :=
        (hedges new _ rfl r (by simp)).kept (hok new r es rfl rfl)
      have hstep : ((memAddEdge dist o new r).exec g).map (fun r => (r.2, some (new, es))) = some s' :=
        hstep
      rw [hexec] at hstep
      obtain rfl := Option.some.inj hstep
      refine ⟨⟨hentries hg, fun new' es' heq r' hr' => ?_⟩, hkept⟩
      obtain ⟨rfl, rfl⟩ := Prod.mk.inj (Option.some.inj heq)
      exact hedges new _ rfl r' (List.mem_cons_of_mem _ hr')
  | finish =>
    rcases pending with _ | ⟨new, _ | ⟨r, es⟩⟩
    · cases hstep
    · have hstep : ((memUpdateEntries o new).exec g).map (fun r => (r.2, none)) = some s' := hstep
      obtain ⟨p, hp, rfl⟩ := Option.map_eq_some_iff.mp hstep
      obtain ⟨hentries, hkept⟩ := finish_kept hg hp
      exact ⟨⟨hentries, fun new es heq => by cases heq⟩, hkept⟩
    · cases hstep

/-- **In a build** whose edges meet the condition, whatever has been inserted: a step keeps the
members of every payload half, and an edge stays in its range. -/
theorem memHalves_kept (hpayload : o.payloadEdges = true)
    (hrun : Runs (memBuilding H dist fuel o).step (BuildMeets dist o) (MemGraph.init mb, none) s)
    {a : BatchAction Unit} (hok : BuildMeets dist o s a)
    (hstep : (memBuilding H dist fuel o).step s a = some s') :
    HalvesKept s.1 s'.1 ∧ ∀ new r es, a = .item → s.2 = some (new, r :: es) → StaysInRange r s.1 s'.1 := by
  have hinit : BuildOk ((MemGraph.init mb, none) : MemGraph mb × Option _) := by
    refine ⟨⟨?_, ?_⟩, ?_⟩
    all_goals
      intro _ _ h
      cases h
  have hs : BuildOk s := hrun.invariant hinit fun hs hok hstep => (hs.step hpayload hok hstep).1
  refine ⟨(hs.step hpayload hok hstep).2, ?_⟩
  rintro new r es rfl hpending
  obtain ⟨g, pending⟩ := s
  dsimp only at hpending
  subst hpending
  obtain ⟨g', hexec, hrange, -⟩ := (hs.2 new _ rfl r (by simp)).kept (hok new r es rfl rfl)
  have hstep : ((memAddEdge dist o new r).exec g).map (fun r => (r.2, some (new, es))) = some s' :=
    hstep
  rw [hexec] at hstep
  obtain rfl := Option.some.inj hstep
  exact hrange

end

end PgAcorn.Build
