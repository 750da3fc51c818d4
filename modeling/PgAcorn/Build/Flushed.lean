import PgAcorn.Build.Laid
import PgAcorn.Build.Serial
import PgAcorn.Build.Lost

/-! An index that starts with the graph of a build.

A flush gives every node of the graph a place in the index, and the elements there have the
neighbors that their nodes have (`Represents`). Such an index is one that inserts can start
with, so that what a build and inserts after it leave is well formed at every instant. -/
namespace PgAcorn.Build
open Library

/-! ### Lists of slots -/

section
variable {n : Nat}

/-- A slot of a node, as a flush reads it: a node number, or `-1`. -/
def slotNumber : Option (Fin n) → Int
  | none => -1
  | some u => u.val

/-- What the slots of a layer name. -/
theorem validTids_map_slots {name : Int → Tid} {slots : List (Option (Fin n))}
    (hnone : name (-1) = Tid.invalid) (hsome : ∀ u, some u ∈ slots → (name u.val).isValid = true) :
    validTids (slots.map fun slot => name (slotNumber slot)) =
      (occupants slots).map fun u => name u.val := by
  induction slots with
  | nil => rfl
  | cons slot slots ih =>
    have hrest := ih fun u hu => hsome u (List.mem_cons_of_mem _ hu)
    unfold validTids occupants at hrest ⊢
    cases slot with
    | none =>
      rw [List.map_cons, List.filterMap_cons_none rfl, List.filter_cons_of_neg]
      · exact hrest
      · simp [slotNumber, hnone]
    | some u =>
      show List.filter _ (name u.val :: slots.map _) = name u.val :: (slots.filterMap _).map _
      rw [List.filter_cons_of_pos (hsome u List.mem_cons_self)]
      exact congrArg (_ :: ·) hrest

end

section
variable {I V Q D : Type} {mb : MemBuild V} {g : MemGraph mb}

/-- Every slot belongs to a layer. -/
theorem layer_of_slot {level k : Nat} (globalM payloadM : Nat)
    (hk : k < t2TotalSlots level globalM payloadM) : ∃ lc ≤ level, (level - lc) * globalM ≤ k ∧
      k < (level - lc) * globalM + t2LayerM lc globalM payloadM := by
  obtain hlt | hge := Nat.lt_or_ge k (level * globalM)
  · have hpos : 0 < globalM := Nat.pos_of_ne_zero fun h0 => by
      rw [h0, Nat.mul_zero] at hlt
      exact Nat.not_lt_zero k hlt
    have hlayer : k / globalM < level := (Nat.div_lt_iff_lt_mul hpos).mpr hlt
    refine ⟨level - k / globalM, Nat.sub_le _ _, ?_⟩
    rw [Nat.sub_sub_self hlayer.le, t2LayerM_pos (Nat.sub_pos_of_lt hlayer), ← Nat.succ_mul]
    exact ⟨Nat.div_mul_le_self k globalM, (Nat.div_lt_iff_lt_mul hpos).mp (Nat.lt_succ_self _)⟩
  · refine ⟨0, Nat.zero_le _, by rwa [Nat.sub_zero], ?_⟩
    unfold t2TotalSlots at hk
    rw [Nat.succ_mul] at hk
    rw [Nat.sub_zero, t2LayerM_zero]
    omega

/-- Every slot of a node is in one of its layers. -/
theorem mem_layerSlots {id u : Fin mb.nNodes} (hu : some u ∈ g.nbr id) :
    ∃ lc ≤ (mb.nodes id).level, some u ∈ g.layerSlots lc id := by
  obtain ⟨k, hk⟩ := List.mem_iff_getElem?.mp hu
  have hlt : k < t2TotalSlots (mb.nodes id).level mb.mEff mb.payloadM := by
    rw [← g.slots id]
    exact (List.getElem?_eq_some_iff.mp hk).1
  obtain ⟨lc, hl, hlow, hhigh⟩ := layer_of_slot mb.mEff mb.payloadM hlt
  refine ⟨lc, hl, List.mem_iff_getElem?.mpr ⟨k - mb.layerStart id lc, ?_⟩⟩
  unfold MemGraph.layerSlots MemBuild.layerStart
  rw [List.getElem?_take_of_lt (by omega), List.getElem?_drop, ← hk]
  congr 1
  omega

/-! ### The graph of a flush -/

/-- A node as a flush reads it, with the identifier of its heap tuple. -/
def MemGraph.node (g : MemGraph mb) (heaptid : Fin mb.nNodes → Tid) (id : Fin mb.nNodes) :
    BuildNode V :=
  ⟨(mb.nodes id).level, (mb.nodes id).filterVal, heaptid id, (mb.nodes id).vec,
    (g.nbr id).map slotNumber⟩

/-- The graph as a flush reads it. -/
def MemGraph.flushed (g : MemGraph mb) (heaptid : Fin mb.nNodes → Tid) : BuildGraph V where
  nodes := ((List.finRange mb.nNodes).take g.pushed).map (g.node heaptid)
  entryId := g.entry.elim (-1) fun e => e.1.val

/-- What a build records of its graph. -/
def MemBuild.params (mb : MemBuild V) (dims : Nat) (inlineVectors : Bool) : BuildParams :=
  ⟨mb.mEff, mb.payloadM, dims, inlineVectors⟩

/-- Where a flush puts the element of a node. -/
def MemGraph.place (g : MemGraph mb) (oc : Opclass V Q D) (b : BuildParams)
    (heaptid : Fin mb.nNodes → Tid) (id : Fin mb.nNodes) : Tid :=
  slotTid (g.flushed heaptid).nodes (memPreassignTids oc b (g.flushed heaptid).nodes) id.val

variable {heaptid : Fin mb.nNodes → Tid} {id u : Fin mb.nNodes}

theorem length_flushed (heaptid : Fin mb.nNodes → Tid) (hroom : g.pushed ≤ mb.nNodes) :
    (g.flushed heaptid).nodes.length = g.pushed := by
  unfold MemGraph.flushed
  rw [List.length_map, List.length_take, List.length_finRange, Nat.min_eq_left hroom]

theorem flushed_node (heaptid : Fin mb.nNodes → Tid) (hid : id.val < g.pushed) :
    (g.flushed heaptid).nodes[id.val]? = some (g.node heaptid id) := by
  unfold MemGraph.flushed
  rw [List.getElem?_map, List.getElem?_take_of_lt hid, List.getElem?_eq_getElem (by simp)]
  simp

/-- The nodes of a flush are the pushed ones. -/
theorem mem_flushed {node : BuildNode V} (h : node ∈ (g.flushed heaptid).nodes) :
    ∃ id : Fin mb.nNodes, id.val < g.pushed ∧ node = g.node heaptid id := by
  obtain ⟨id, hid, rfl⟩ := List.mem_map.mp h
  obtain ⟨k, hk, rfl⟩ := List.mem_take_iff_getElem.mp hid
  refine ⟨_, ?_, rfl⟩
  rw [List.getElem_finRange]
  exact (Nat.lt_min.mp hk).1

variable {oc : Opclass V Q D} {b : BuildParams}

/-- A pushed node, with its places. -/
theorem flushed_place (oc : Opclass V Q D) (b : BuildParams) (heaptid : Fin mb.nNodes → Tid)
    (hroom : g.pushed ≤ mb.nNodes) (hid : id.val < g.pushed) : ∃ place,
    ((g.flushed heaptid).nodes.zip (memPreassignTids oc b (g.flushed heaptid).nodes))[id.val]? =
      some (g.node heaptid id, place) ∧ g.place oc b heaptid id = place.elem := by
  have hnode := flushed_node heaptid hid
  have hlt : id.val < (memPreassignTids oc b (g.flushed heaptid).nodes).length := by
    rwa [length_memPreassignTids, length_flushed heaptid hroom]
  refine ⟨(memPreassignTids oc b (g.flushed heaptid).nodes)[id.val],
    List.getElem?_zip_eq_some.mpr ⟨hnode, List.getElem?_eq_getElem hlt⟩, ?_⟩
  unfold MemGraph.place slotTid target
  rw [if_neg (by omega), Int.toNat_natCast, hnode, List.getElem?_eq_getElem hlt]
  rfl

theorem target_flushed {places : List Places} {p : BuildNode V × Places} (hid : id.val < g.pushed)
    (h : target (g.flushed heaptid).nodes places id.val = some p) : p.1 = g.node heaptid id := by
  unfold target at h
  rw [if_neg (by omega), Int.toNat_natCast, flushed_node heaptid hid] at h
  obtain ⟨node, hnode, h⟩ := Option.bind_eq_some_iff.mp h
  obtain ⟨place, -, heq⟩ := Option.bind_eq_some_iff.mp h
  cases heq
  exact (Option.some.inj hnode).symm

/-- Every node of a flush is a pushed one. -/
theorem place_of_zip (hroom : g.pushed ≤ mb.nNodes) {p : BuildNode V × Places}
    (hp : p ∈ (g.flushed heaptid).nodes.zip (memPreassignTids oc b (g.flushed heaptid).nodes)) :
    ∃ id : Fin mb.nNodes, id.val < g.pushed ∧ p.2.elem = g.place oc b heaptid id := by
  obtain ⟨k, hk⟩ := List.mem_iff_getElem?.mp hp
  have hlt : k < g.pushed := by
    rw [← length_flushed heaptid hroom]
    exact (List.getElem?_eq_some_iff.mp (List.getElem?_zip_eq_some.mp hk).1).1
  obtain ⟨place, hplace, heq⟩ := flushed_place oc b heaptid hroom
    (show (⟨k, hlt.trans_le hroom⟩ : Fin mb.nNodes).val < g.pushed from hlt)
  rw [hk] at hplace
  refine ⟨⟨k, hlt.trans_le hroom⟩, hlt, ?_⟩
  rw [heq, Option.some.inj hplace]

/-! ### The graph in the index -/

/-- **An index has the graph of a build**: each pushed node is the element at its place, and there
are no others. -/
structure Represents (g : MemGraph mb) (heaptid place : Fin mb.nNodes → Tid) (r : Relation V Q) :
    Prop where
  distinct : ∀ {id u : Fin mb.nNodes}, id.val < g.pushed → u.val < g.pushed →
    place id = place u → id = u
  element : ∀ {id : Fin mb.nNodes}, id.val < g.pushed → ∃ nbrtid, r.element (place id) =
    some (newElement (mb.nodes id).level (mb.nodes id).filterVal (heaptid id) nbrtid
      (mb.nodes id).vec)
  others : ∀ {t : Tid} {e : ElementTuple V}, r.element t = some e →
    ∃ id : Fin mb.nNodes, id.val < g.pushed ∧ t = place id
  neighbors : ∀ {id : Fin mb.nNodes} {lc : Nat}, id.val < g.pushed → lc ≤ (mb.nodes id).level →
    r.layerNeighbors lc (place id) = (g.build.neighbors lc id).map place
  entry : ∀ {id : Fin mb.nNodes} {level : Nat}, g.entry = some (id, level) →
    r.metaPage.hasEntry = true ∧ r.metaPage.entry = place id ∧ r.metaPage.entryLevel = level
  noEntry : g.entry = none → r.metaPage.hasEntry = false

/-- A layer of a node, as a flush reads it. -/
theorem layer_node {dims : Nat} {inlineVectors : Bool} (lc : Nat) (heaptid : Fin mb.nNodes → Tid)
    (id : Fin mb.nNodes) : (g.node heaptid id).layer (mb.params dims inlineVectors) lc =
      (g.layerSlots lc id).map slotNumber := by
  unfold BuildNode.layer MemGraph.layerSlots MemBuild.layerStart MemBuild.params MemGraph.node
  rw [← List.map_drop, ← List.map_take]

/-- **An index with the graph's tuples has the graph.** -/
theorem Laid.represents [Inhabited Q] {dims : Nat} {inlineVectors : Bool} {r : Relation V Q}
    (hroom : g.pushed ≤ mb.nNodes) (hg : Joined g g.pushed)
    (h : Laid oc (mb.params dims inlineVectors) (g.flushed heaptid).nodes r)
    (hm : r.metaPage.m = mb.mEff) (hpayload : r.metaPage.payloadWidth = mb.payloadM)
    (hentry : ∀ {id level}, g.entry = some (id, level) → id.val < g.pushed ∧
      r.metaPage.entry = g.place oc (mb.params dims inlineVectors) heaptid id ∧
        r.metaPage.entryLevel = level)
    (hnone : g.entry = none → r.metaPage.hasEntry = false) :
    Represents g heaptid (g.place oc (mb.params dims inlineVectors) heaptid) r := by
  have helement : ∀ {id : Fin mb.nNodes}, id.val < g.pushed → ∃ nbrtid,
      r.element (g.place oc (mb.params dims inlineVectors) heaptid id) = some (newElement
        (mb.nodes id).level (mb.nodes id).filterVal (heaptid id) nbrtid (mb.nodes id).vec) := by
    intro id hid
    obtain ⟨place, hplace, heq⟩ :=
      flushed_place oc (mb.params dims inlineVectors) heaptid hroom hid
    rw [heq]
    exact ⟨_, (h.readsBack _ (List.mem_of_getElem? hplace)).element⟩
  refine ⟨fun {id u} hid hu heq => ?_, helement, fun he => ?_, fun {id lc} hid hl => ?_,
    fun hsome => ⟨?_, (hentry hsome).2⟩, hnone⟩
  · obtain ⟨pi, hpi, hi⟩ := flushed_place oc (mb.params dims inlineVectors) heaptid hroom hid
    obtain ⟨pu, hpu, hu⟩ := flushed_place oc (mb.params dims inlineVectors) heaptid hroom hu
    have hlt := (List.getElem?_eq_some_iff.mp hpi).1
    refine Fin.ext ((List.getElem?_inj (by rwa [List.length_map]) h.elems).mp ?_)
    rw [List.getElem?_map, List.getElem?_map, hpi, hpu]
    exact congrArg some (hi.symm.trans (heq.trans hu))
  · obtain ⟨p, hp, rfl⟩ := h.element he
    exact place_of_zip hroom hp
  · obtain ⟨place, hplace, heq⟩ :=
      flushed_place oc (mb.params dims inlineVectors) heaptid hroom hid
    obtain ⟨hself, n, hn, hcount, hlayers, -⟩ := h.readsBack _ (List.mem_of_getElem? hplace)
    have hslots := (Relation.slotRange_layer hcount hl).symm.trans (hlayers lc hl)
    have hslots : layerSlots mb.mEff mb.payloadM (mb.nodes id).level lc n.tids = _ :=
      Option.some.inj hslots
    rw [heq, Relation.layerNeighbors_eq hself hn, hm, hpayload, neighbors_eq g hl]
    show validTids (layerSlots mb.mEff mb.payloadM (mb.nodes id).level lc n.tids) = _
    rw [hslots, layer_node, List.map_map]
    refine validTids_map_slots rfl fun u hu => ?_
    have hu : u ∈ g.build.neighbors lc id := by
      rw [neighbors_eq g hl, mem_occupants]
      exact hu
    obtain ⟨nbrtid, helem⟩ := helement ((hg.linked hid).targets hl hu).1
    exact (Relation.isValid_of_item (Relation.element_some.mp helem)).1
  · obtain ⟨hid, hat, -⟩ := hentry hsome
    obtain ⟨nbrtid, helem⟩ := helement hid
    rw [← hat] at helem
    have hblk : r.metaPage.entryBlkno ≤ _ :=
      Relation.blkno_le_of_item (Relation.element_some.mp helem)
    have hblocks := h.blocks
    unfold MetaPage.hasEntry
    rw [bne_iff_ne]
    omega

/-- An element is that of a node, and has a neighbor tuple. -/
theorem Laid.read [Inhabited Q] {nodes : List (BuildNode V)} {r : Relation V Q}
    (h : Laid oc b nodes r) {t : Tid} {e : ElementTuple V} (he : r.element t = some e) :
    ∃ p ∈ nodes.zip (memPreassignTids oc b nodes), t = p.2.elem ∧ e.neighbortid = p.2.nbrtid ∧
      ∃ n, r.neighbor e.neighbortid = some n ∧ n.count = t2TotalSlots e.level b.mEff b.payloadM ∧
        (b.inlineVectors = true → n.inline?.isSome = true) := by
  obtain ⟨p, hp, rfl⟩ := h.element he
  obtain ⟨hself, n, hn, hcount, -, hchunks⟩ := h.readsBack p hp
  obtain rfl := Option.some.inj (he.symm.trans hself)
  refine ⟨p, hp, rfl, rfl, n, hn, hcount, fun hinline => ?_⟩
  rw [if_pos hinline] at hchunks
  obtain ⟨c, -, hc, -⟩ := hchunks
  rw [hc]
  rfl

section
variable {r : Relation V Q} {o : MemSettings} {place : Fin mb.nNodes → Tid}

theorem Represents.node (hr : Represents g heaptid place r) {t : Tid} {e : ElementTuple V}
    (he : r.element t = some e) : ∃ id : Fin mb.nNodes, id.val < g.pushed ∧ t = place id ∧
      e.level = (mb.nodes id).level := by
  obtain ⟨id, hid, rfl⟩ := hr.others he
  obtain ⟨nbrtid, hself⟩ := hr.element hid
  obtain rfl := Option.some.inj (he.symm.trans hself)
  exact ⟨id, hid, rfl, rfl⟩

/-- The entry point is an element, of the level that the meta page records. -/
theorem Represents.entryElement (hg : g.WellFormed o) (hr : Represents g heaptid place r)
    (hhas : r.metaPage.hasEntry = true) :
    ∃ e, r.element r.metaPage.entry = some e ∧ r.metaPage.entryLevel = e.level := by
  obtain hzero | hpos := Nat.eq_zero_or_pos g.pushed
  · rw [hr.noEntry (hg.entries.start hzero)] at hhas
    cases hhas
  · obtain ⟨id, hid, hentry, -⟩ := hg.entries.top hpos
    obtain ⟨-, hplace, hlevel⟩ := hr.entry hentry
    obtain ⟨nbrtid, hself⟩ := hr.element hid
    exact ⟨_, hplace ▸ hself, hlevel⟩

/-- The slots of an element are in order. -/
theorem Represents.slotsOk (hg : g.WellFormed o) (hr : Represents g heaptid place r) {t : Tid}
    {e : ElementTuple V} {n : NeighborTuple Q} (he : r.element t = some e)
    (hn : r.neighbor e.neighbortid = some n)
    (hcount : n.count = t2TotalSlots e.level r.metaPage.m r.metaPage.payloadWidth) :
    SlotsOk r.metaPage r t e.level n.tids := by
  obtain ⟨id, hid, hat, hlevel⟩ := hr.node he
  have hlinked := hg.joined.linked hid
  have hlayer : ∀ {layer}, layer ≤ e.level → validTids (layerSlots r.metaPage.m
      r.metaPage.payloadWidth e.level layer n.tids) = (g.build.neighbors layer id).map place := by
    intro layer hl
    rw [← Relation.layerNeighbors_eq he hn, hat]
    exact hr.neighbors hid (hlevel ▸ hl)
  refine ⟨hcount, fun {layer u} hl hu => ?_, fun {layer} hl => ?_⟩
  · rw [hlayer hl] at hu
    obtain ⟨v, hv, rfl⟩ := List.mem_map.mp hu
    obtain ⟨hlt, hne, hlv⟩ := hlinked.targets (hlevel ▸ hl) hv
    obtain ⟨nbrtid, hself⟩ := hr.element hlt
    exact ⟨fun heq => hne (hr.distinct hlt hid (heq.trans hat)), _, hself, hlv⟩
  · rw [hlayer hl]
    refine (hlinked.nodup (hlevel ▸ hl)).map_on fun v hv w hw heq => ?_
    exact hr.distinct (hlinked.targets (hlevel ▸ hl) hv).1 (hlinked.targets (hlevel ▸ hl) hw).1 heq

/-- The elements whose entry-update step has run. -/
def Relation.entries (r : Relation V Q) : List Tid :=
  if r.metaPage.hasEntry then [r.metaPage.entry] else []

/-- **The index is one that inserts can start with.** -/
theorem Represents.startable [Inhabited Q] {dims : Nat} {inlineVectors : Bool}
    (hg : g.WellFormed o) (hr : Represents g heaptid place r)
    (h : Laid oc (mb.params dims inlineVectors) (g.flushed heaptid).nodes r) (hpos : 0 < mb.mEff)
    (hm : r.metaPage.m = mb.mEff) (hpayload : r.metaPage.payloadWidth = mb.payloadM)
    (hinline : r.metaPage.inlineVectors = inlineVectors)
    (hwidth : t2L0Width mb.mEff mb.payloadM ≤ hnswMaxNeighbors) :
    Startable r (Relation.entries r) := by
  have hsound : Sound r.metaPage r := by
    refine ⟨.refl _, hm ▸ hpos, by rwa [hm, hpayload], h.blocks, fun {t e} he => ?_,
      fun {t u e e'} he he' hown => ?_, hr.entryElement hg, fun hi {t e n} he hn => ?_, h.chunks⟩
    · obtain ⟨-, -, -, -, n, hn, hcount, -⟩ := h.read he
      exact ⟨n, hn, hr.slotsOk hg he hn (by rw [hm, hpayload]; exact hcount)⟩
    · obtain ⟨p, hp, rfl, hnp, -⟩ := h.read he
      obtain ⟨q, hq, rfl, hnq, -⟩ := h.read he'
      rw [List.inj_on_of_nodup_map h.nbrtids hp hq (hnp.symm.trans (hown.trans hnq))]
    · obtain ⟨-, -, -, -, n', hn', -, hsome⟩ := h.read he
      obtain rfl := Option.some.inj (hn.symm.trans hn')
      exact hsome (hinline.symm.trans hi)
  refine ⟨hsound, fun t ht => ?_, fun hhas => ?_⟩
  · unfold Relation.entries at ht
    split at ht
    · rename_i hhas
      obtain ⟨e, he, hlevel⟩ := hr.entryElement hg hhas
      rw [List.mem_singleton.mp ht]
      exact ⟨hhas, e, he, hlevel.ge⟩
    · cases ht
  · unfold Relation.entries
    rw [if_pos hhas]
    exact List.mem_singleton_self _

/-- An element that has no neighbors is alone. -/
theorem Represents.alone (hg : Joined g g.pushed) (hr : Represents g heaptid place r) {t : Tid}
    {e : ElementTuple V} (he : r.element t = some e) (hnil : r.layerNeighbors 0 t = []) {u : Tid}
    {e' : ElementTuple V} (hu : r.element u = some e') : u = t := by
  obtain ⟨id, hid, rfl⟩ := hr.others he
  obtain ⟨v, hv, rfl⟩ := hr.others hu
  by_contra hne
  rw [hr.neighbors hid (Nat.zero_le _)] at hnil
  refine hg.attached hid hv (fun heq => hne ?_) (Nat.zero_le _) (Nat.zero_le _)
    (List.map_eq_nil_iff.mp hnil)
  rw [heq]

end

/-! ### A flush after a build -/

/-- The tuples of the nodes fit pages. -/
def MemBuild.FitsPages (mb : MemBuild V) (oc : Opclass V Q D) (b : BuildParams) : Prop :=
  ∀ id, (∀ size ∈ neighborSizes b (mb.nodes id).level, size ≤ hnswMaxSize) ∧
    elementTupleSize (oc.vsize (mb.nodes id).vec) ≤ hnswMaxSize

variable {o : MemSettings}

/-- The entry point of a graph is one of its nodes. -/
theorem MemGraph.WellFormed.entry_lt (hg : g.WellFormed o) {level : Nat}
    (h : g.entry = some (id, level)) : id.val < g.pushed ∧ level = (mb.nodes id).level := by
  obtain hzero | hpos := Nat.eq_zero_or_pos g.pushed
  · rw [hg.entries.start hzero] at h
    cases h
  · obtain ⟨u, hu, hentry, -⟩ := hg.entries.top hpos
    obtain ⟨rfl, rfl⟩ := Prod.mk.inj (Option.some.inj (hentry.symm.trans h))
    exact ⟨hu, rfl⟩

/-- A graph that the inserts leave can be flushed. -/
theorem MemGraph.WellFormed.flushable {dims : Nat} {inlineVectors : Bool} (hg : g.WellFormed o)
    (heaptid : Fin mb.nNodes → Tid) (hfits : mb.FitsPages oc (mb.params dims inlineVectors)) :
    (g.flushed heaptid).Flushable oc (mb.params dims inlineVectors) where
  slots node hnode := by
    obtain ⟨id, -, rfl⟩ := mem_flushed hnode
    exact (List.length_map _).trans (g.slots id)
  targets node hnode slot hslot := by
    obtain ⟨id, hid, rfl⟩ := mem_flushed hnode
    obtain ⟨s, hs, rfl⟩ := List.mem_map.mp hslot
    rw [length_flushed heaptid hg.room]
    cases s with
    | none => exact lt_of_lt_of_le (by decide : (-1 : Int) < 0) (Int.natCast_nonneg _)
    | some u =>
      obtain ⟨lc, hl, hu⟩ := mem_layerSlots hs
      refine Int.ofNat_lt.mpr ((hg.joined.linked hid).targets hl ?_).1
      rw [neighbors_eq g hl, mem_occupants]
      exact hu
  entry := by
    rw [length_flushed heaptid hg.room]
    unfold MemGraph.flushed
    cases h : g.entry with
    | none => exact lt_of_lt_of_le (by decide : (-1 : Int) < 0) (Int.natCast_nonneg _)
    | some e => exact Int.ofNat_lt.mpr (hg.entry_lt h).1
  neighbors node hnode := by
    obtain ⟨id, -, rfl⟩ := mem_flushed hnode
    exact (hfits id).1
  elements node hnode := by
    obtain ⟨id, -, rfl⟩ := mem_flushed hnode
    exact (hfits id).2

/-- **A flush of a well-formed graph** leaves an index that has the graph, and that inserts can
start with. -/
theorem MemGraph.WellFormed.memFlush [Inhabited Q] {dims : Nat} {inlineVectors : Bool}
    (hg : g.WellFormed o) (hm : 0 < mb.mEff) (hpayload : 0 < mb.payloadM)
    (hwidth : t2L0Width mb.mEff mb.payloadM ≤ hnswMaxNeighbors)
    (hfits : mb.FitsPages oc (mb.params dims inlineVectors)) {s s' : Disk I V Q}
    (hs : s.relation = emptyIndex V Q mb.mEff mb.payloadM dims inlineVectors)
    (h : Build.memFlush oc (mb.params dims inlineVectors) (g.flushed heaptid) s = some s') :
    Represents g heaptid (g.place oc (mb.params dims inlineVectors) heaptid) s'.relation ∧
      Startable s'.relation (Relation.entries s'.relation) := by
  obtain ⟨hlaid, hgeometry, hentry⟩ := memFlush_laid (hg.flushable heaptid hfits)
    (by rw [hs]; rfl) (by rw [hs]; rfl) h
  rw [hs] at hgeometry
  have hwide : s'.relation.metaPage.payloadWidth = mb.payloadM :=
    hgeometry.payloadWidth.trans (payloadWidth_createMetaPage hpayload dims inlineVectors)
  have hr : Represents g heaptid (g.place oc (mb.params dims inlineVectors) heaptid)
      s'.relation := by
    refine hlaid.represents hg.room hg.joined hgeometry.m hwide (fun {id level} hat => ?_)
      fun hat => ?_
    · obtain ⟨hid, rfl⟩ := hg.entry_lt hat
      have hnumber : (g.flushed heaptid).entryId = id.val := by
        unfold MemGraph.flushed
        rw [hat]
        rfl
      rw [hnumber, if_pos (Int.natCast_nonneg _)] at hentry
      obtain ⟨p, hp, hplace, hlevel⟩ := hentry
      refine ⟨hid, ?_, ?_⟩
      · unfold MemGraph.place slotTid
        rw [Option.mem_def.mp hp]
        exact hplace
      · rw [hlevel, target_flushed hid (Option.mem_def.mp hp)]
        rfl
    · have hnumber : (g.flushed heaptid).entryId = -1 := by
        unfold MemGraph.flushed
        rw [hat]
        rfl
      rw [hnumber, if_neg (by decide)] at hentry
      exact hentry
  exact ⟨hr, hr.startable hg hlaid hm hgeometry.m hwide hgeometry.inlineVectors hwidth⟩

end

end PgAcorn.Build
