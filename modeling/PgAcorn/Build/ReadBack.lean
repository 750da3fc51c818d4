import PgAcorn.Build.Places
import PgAcorn.Build.Runs
import PgAcorn.Library.Tiling

/-! A flushed graph, read back.

The tuples of a flush are appended where `acorn_mem_preassign_tids` has placed them, so
that every place a neighbor tuple, an element or an inline entry names is the place of
the tuple it means (`flush_faithful`). -/
namespace PgAcorn.Build
open Library
open PgAcorn.Filter (Datum)

section
variable {I V Q D : Type}

/-! ### What is read -/

/-- The slots of one layer of a node. -/
def BuildNode.layer (b : BuildParams) (node : BuildNode V) (lc : Nat) : List Int :=
  (node.nbr.drop ((node.level - lc) * b.mEff)).take (t2LayerM lc b.mEff b.payloadM)

/-- The identifier of the element in a slot. -/
def slotTid (nodes : List (BuildNode V)) (places : List Places) (slot : Int) : Tid :=
  match target nodes places slot with
  | some p => p.2.elem
  | none => Tid.invalid

/-- The inline entry that describes a node. -/
def nodeEntry (oc : Opclass V Q D) (b : BuildParams) (p : BuildNode V × Places) : InlineEntry Q where
  indextid := p.2.elem
  heaptid := p.1.heaptid
  nbrtid := p.2.nbrtid
  level := p.1.level
  valid := true
  deleted := false
  filterVal := p.1.filterVal
  code := oc.sq8Encode b.dims p.1.vec

/-- The inline entry that describes the element in a slot. -/
def slotEntry [Inhabited Q] (oc : Opclass V Q D) (b : BuildParams) (nodes : List (BuildNode V))
    (places : List Places) (slot : Int) : InlineEntry Q :=
  match target nodes places slot with
  | some p => nodeEntry oc b p
  | none => InlineEntry.zero

/-- How many layer-0 slots have inline entries: all of them, unless not even one entry
fits a continuation. -/
def inlineCovered (b : BuildParams) (level : Nat) : Nat :=
  let esz := inlineEntrySize b.dims
  if t2InlineContCap esz > 0 then t2L0Width b.mEff b.payloadM
  else min (t2L0Width b.mEff b.payloadM) (t2InlinePrimaryCap level b.mEff b.payloadM esz)

/-- A chain of continuation chunks. -/
inductive Chain (r : Relation V Q) : Tid → List (InlineChunk Q) → Prop
  | nil {t : Tid} (h : t.isValid = false) : Chain r t []
  | cons {t : Tid} {c : InlineChunk Q} {cs : List (InlineChunk Q)} (h : r.item t = some (.cont c))
      (hc : Chain r c.next cs) : Chain r t (c :: cs)

/-! ### What is written -/

/-- The tuples of a flush in the order of their appends: the neighbor tuples with their
chunks, then the elements. -/
def flushTuples [Inhabited Q] (oc : Opclass V Q D) (b : BuildParams) (nodes : List (BuildNode V))
    (places : List Places) : Option (List (IndexTuple V Q × Nat)) :=
  ((nodes.zip places).mapM fun p => neighborTuples oc b nodes places p.1 p.2).map fun nbrs =>
    nbrs.flatten ++ (nodes.zip places).map fun p =>
      (.element (p.1.element p.2), elementTupleSize (oc.vsize p.1.vec))

/-- The simulated places of these tuples. -/
def flushPlaces (all : List (BuildNode V × Places)) : List Tid :=
  all.flatMap (fun p => p.2.nbr) ++ all.map fun p => p.2.elem

/-- Their sizes. -/
def flushSizes (oc : Opclass V Q D) (b : BuildParams) (nodes : List (BuildNode V)) : List Nat :=
  nodes.flatMap (fun node => neighborSizes b node.level) ++
    nodes.map fun node => elementTupleSize (oc.vsize node.vec)

/-- Pass 3 and the entry point. -/
def endFlush (b : BuildParams) (g : BuildGraph V) (places : List Places) (s : Disk I V Q)
    (r : Relation V Q) : Disk I V Q :=
  let s := s.withRelation ((g.nodes.zip places).foldl (patchSlots b g.nodes places) r)
  match target g.nodes places g.entryId with
  | some p => s.updateEntry p.2.elem p.1.level
  | none => s

/-! ### The statement -/

/-- A graph as the inserts leave it, whose tuples fit pages. -/
structure BuildGraph.Flushable (oc : Opclass V Q D) (b : BuildParams) (g : BuildGraph V) : Prop where
  slots : ∀ node ∈ g.nodes, node.nbr.length = t2TotalSlots node.level b.mEff b.payloadM
  targets : ∀ node ∈ g.nodes, ∀ slot ∈ node.nbr, slot < g.nodes.length
  entry : g.entryId < g.nodes.length
  neighbors : ∀ node ∈ g.nodes, ∀ size ∈ neighborSizes b node.level, size ≤ hnswMaxSize
  elements : ∀ node ∈ g.nodes, elementTupleSize (oc.vsize node.vec) ≤ hnswMaxSize

/-- The relation that the flush makes is no larger than a relation may be. -/
def BuildGraph.FitsRelation (oc : Opclass V Q D) (b : BuildParams) (g : BuildGraph V) : Prop :=
  (SimPage.init.placeAll (flushSizes oc b g.nodes)).2.blkno < invalidBlockNumber

/-- The vectors that get inline entries have the index's dimensions. -/
def BuildGraph.DimsMatch (oc : Opclass V Q D) (b : BuildParams) (g : BuildGraph V) : Prop :=
  b.inlineVectors → ∀ node ∈ g.nodes, ∀ slot ∈ (node.layer b 0).take (inlineCovered b node.level),
    0 ≤ slot → ∀ t ∈ g.nodes[slot.toNat]?, oc.dim t.vec = b.dims

/-- A node as it is read back from its element tuple. -/
structure ReadsBack [Inhabited Q] (oc : Opclass V Q D) (b : BuildParams) (nodes : List (BuildNode V))
    (places : List Places) (r : Relation V Q) (node : BuildNode V) (place : Places) : Prop where
  element : r.element place.elem = some (newElement node.level node.filterVal node.heaptid
    place.nbrtid node.vec)
  neighbors : ∃ n, r.neighbor place.nbrtid = some n ∧ n.count = t2TotalSlots node.level b.mEff b.payloadM ∧
    (∀ lc ≤ node.level, slotRange n.tids (hnswNeighborStart b.mEff node.level lc)
      (t2LayerM lc b.mEff b.payloadM) = some ((node.layer b lc).map (slotTid nodes places))) ∧
    if b.inlineVectors then
      ∃ c cs, n.inline? = some c ∧ Chain r c.next cs ∧
        ((c :: cs).flatMap InlineChunk.entries =
          ((node.layer b 0).take (inlineCovered b node.level)).map (slotEntry oc b nodes places)) ∧
        ∀ c' ∈ c :: cs, c'.entries =
          (((node.layer b 0).drop c'.start).take c'.entries.length).map (slotEntry oc b nodes places)
    else n.inline? = none

/-- **A faithful flush**: every tuple is where it was placed, the places name different
tuples, and the graph is read back. -/
structure Faithful [Inhabited Q] (oc : Opclass V Q D) (b : BuildParams) (g : BuildGraph V)
    (s s' : Disk I V Q) : Prop where
  placed : ∃ tuples r, flushTuples oc b g.nodes (memPreassignTids oc b g.nodes) = some tuples ∧
    appendAll s.relation tuples =
      some (flushPlaces (g.nodes.zip (memPreassignTids oc b g.nodes)), r) ∧
    s' = endFlush b g (memPreassignTids oc b g.nodes) s r
  distinct : (flushPlaces (g.nodes.zip (memPreassignTids oc b g.nodes))).Nodup
  nodes : ∀ p ∈ g.nodes.zip (memPreassignTids oc b g.nodes),
    ReadsBack oc b g.nodes (memPreassignTids oc b g.nodes) s'.relation p.1 p.2
  targets : ∀ node ∈ g.nodes, ∀ slot ∈ node.nbr, 0 ≤ slot →
    ∃ p ∈ target g.nodes (memPreassignTids oc b g.nodes) slot,
      g.nodes[slot.toNat]? = some p.1 ∧ p ∈ g.nodes.zip (memPreassignTids oc b g.nodes)
  entry : if 0 ≤ g.entryId then
      ∃ p ∈ target g.nodes (memPreassignTids oc b g.nodes) g.entryId,
        g.nodes[g.entryId.toNat]? = some p.1 ∧ s'.relation.metaPage.entry = p.2.elem ∧
          s'.relation.metaPage.entryLevel = p.1.level
    else s'.relation.metaPage = s.relation.metaPage

/-! ### Lists of options -/

section
variable {α β : Type}

theorem mapM_eq_some {f : α → Option β} {g : α → β} {l : List α} {l' : List β}
    (hf : ∀ x ∈ l, ∀ y, f x = some y → y = g x) (h : l.mapM f = some l') :
    l' = l.map g ∧ ∀ x ∈ l, f x = some (g x) := by
  induction l generalizing l' with
  | nil =>
    cases h
    exact ⟨rfl, nofun⟩
  | cons x l ih =>
    rw [List.mapM_cons] at h
    obtain ⟨y, hy, h⟩ := Option.bind_eq_some_iff.mp h
    obtain ⟨ys, hys, h⟩ := Option.bind_eq_some_iff.mp h
    cases h
    obtain ⟨rfl, hall⟩ := ih (fun z hz => hf z (List.mem_cons_of_mem x hz)) hys
    obtain rfl := hf x List.mem_cons_self y hy
    exact ⟨rfl, List.forall_mem_cons.mpr ⟨hy, hall⟩⟩

theorem mapM_isSome {f : α → Option β} {l : List α} (h : ∀ x ∈ l, (f x).isSome) :
    (l.mapM f).isSome := by
  induction l with
  | nil => rfl
  | cons x l ih =>
    obtain ⟨y, hy⟩ := Option.isSome_iff_exists.mp (h x List.mem_cons_self)
    obtain ⟨ys, hys⟩ := Option.isSome_iff_exists.mp
      (ih fun z hz => h z (List.mem_cons_of_mem x hz))
    simp [List.mapM_cons, hy, hys]

end

/-! ### Chunks -/

/-- The layer-0 slots of a chunk. -/
def chunkSpan (c : InlineChunk Q) : Nat × Nat := (c.start, c.entries.length)

/-- **The chunks tile the layer-0 slots that have entries.** -/
theorem tiles_chunks (b : BuildParams) (level : Nat) :
    Tiles (inlineCovered b level) 0 (chunks b level) := by
  unfold chunks inlineCovered
  dsimp only
  generalize t2L0Width b.mEff b.payloadM = width
  generalize t2InlinePrimaryCap level b.mEff b.payloadM (inlineEntrySize b.dims) = cap₁
  generalize t2InlineContCap (inlineEntrySize b.dims) = cap
  apply Tiles.cons
  rw [Nat.zero_add]
  split
  · rename_i hcap
    have hcut := tiles_cut hcap (min width cap₁) (width - min width cap₁)
    have hwidth : min width cap₁ + (width - min width cap₁) = width := by omega
    rw [hwidth] at hcut
    simp only [cut, Nat.sub_sub] at hcut
    exact hcut
  · exact .nil

theorem inlineCovered_le (b : BuildParams) (level : Nat) :
    inlineCovered b level ≤ t2L0Width b.mEff b.payloadM := by
  unfold inlineCovered
  dsimp only
  split
  · exact Nat.le_refl _
  · exact Nat.min_le_left _ _

/-- **The chunks cover the layer-0 slots in order.** -/
theorem chunks_flatMap (b : BuildParams) (level : Nat) (l : List Int) :
    (chunks b level).flatMap (fun chunk => (l.drop chunk.1).take chunk.2) =
      l.take (inlineCovered b level) := (tiles_chunks b level).flatMap_take l

theorem chunks_bound {b : BuildParams} {level : Nat} {chunk : Nat × Nat}
    (h : chunk ∈ chunks b level) : chunk.1 + chunk.2 ≤ t2L0Width b.mEff b.payloadM :=
  ((tiles_chunks b level).mem_le h).2.trans (inlineCovered_le b level)

theorem length_layer {b : BuildParams} {node : BuildNode V} {lc : Nat} (hlc : lc ≤ node.level)
    (h : node.nbr.length = t2TotalSlots node.level b.mEff b.payloadM) :
    (node.layer b lc).length = t2LayerM lc b.mEff b.payloadM := by
  have hend := layer_end_le hlc b.mEff b.payloadM
  unfold BuildNode.layer
  rw [List.length_take, List.length_drop]
  omega

/-! ### The tuples of a node -/

variable {oc : Opclass V Q D} {b : BuildParams} {nodes : List (BuildNode V)}
  {places : List Places} {node : BuildNode V} {place : Places}

/-- The entry of a slot, in the steps of `acorn_mem_flush_inline_node`. -/
def fillSlot [Inhabited Q] (oc : Opclass V Q D) (b : BuildParams) (nodes : List (BuildNode V))
    (places : List Places) (slot : Int) : Option (InlineEntry Q) :=
  match target nodes places slot with
  | none => some InlineEntry.zero
  | some p => memFillInlineEntry oc b p.1 p.2

theorem fillSlot_eq [Inhabited Q] {slot : Int} {e : InlineEntry Q}
    (h : fillSlot oc b nodes places slot = some e) : e = slotEntry oc b nodes places slot := by
  unfold fillSlot at h
  unfold slotEntry
  cases ht : target nodes places slot with
  | none =>
    rw [ht] at h
    cases h
    rfl
  | some p =>
    rw [ht] at h
    dsimp only [memFillInlineEntry] at h
    split at h
    · cases h
    · cases h
      rfl

theorem fillSlot_isSome [Inhabited Q] {slot : Int} :
    (fillSlot oc b nodes places slot).isSome ↔
      ∀ p ∈ target nodes places slot, oc.dim p.1.vec = b.dims := by
  unfold fillSlot
  cases ht : target nodes places slot with
  | none => simp
  | some p =>
    dsimp only [memFillInlineEntry]
    by_cases hdim : oc.dim p.1.vec = b.dims <;> simp [hdim]

theorem chunkEntries_eq [Inhabited Q] {chunk : Nat × Nat} (hchunk : chunk ∈ chunks b node.level) :
    chunkEntries oc b nodes places node chunk =
      (((node.layer b 0).drop chunk.1).take chunk.2).mapM (fillSlot oc b nodes places) := by
  have hbound := chunks_bound hchunk
  have hstart : (hnswNeighborStart b.mEff node.level 0).toNat = node.level * b.mEff := by
    have heq := hnswNeighborStart_eq (Nat.zero_le node.level) b.mEff
    rw [Nat.cast_zero] at heq
    rw [heq]
    exact Int.toNat_natCast _
  have hslots : (node.nbr.drop (node.level * b.mEff + chunk.1)).take chunk.2 =
      ((node.layer b 0).drop chunk.1).take chunk.2 := by
    unfold BuildNode.layer
    rw [Nat.sub_zero, List.drop_take, List.take_take, List.drop_drop, t2LayerM_zero]
    congr 1
    unfold t2L0Width at hbound
    omega
  unfold chunkEntries
  dsimp only
  rw [hstart, hslots]
  rfl

/-- What neighbor tuple and chunks a node gets. -/
structure NodeTuples [Inhabited Q] (oc : Opclass V Q D) (b : BuildParams) (nodes : List (BuildNode V))
    (places : List Places) (node : BuildNode V) (place : Places)
    (tuples : List (IndexTuple V Q × Nat)) : Prop where
  sizes : tuples.map Prod.snd = neighborSizes b node.level
  plain : b.inlineVectors = false → tuples.map Prod.fst =
    [.neighbor ⟨List.replicate (t2TotalSlots node.level b.mEff b.payloadM) Tid.invalid, none⟩]
  inline : b.inlineVectors = true → ∃ c cs, tuples.map Prod.fst =
      .neighbor ⟨List.replicate (t2TotalSlots node.level b.mEff b.payloadM) Tid.invalid, some c⟩ ::
        cs.map .cont ∧
    (c :: cs).map InlineChunk.next = (place.nbr ++ [Tid.invalid]).tail ∧
    (c :: cs).flatMap InlineChunk.entries =
      ((node.layer b 0).take (inlineCovered b node.level)).map (slotEntry oc b nodes places) ∧
    ∀ c' ∈ c :: cs, c'.entries =
      (((node.layer b 0).drop c'.start).take c'.entries.length).map (slotEntry oc b nodes places)
  spans : b.inlineVectors = true →
    ((tuples.map Prod.fst).filterMap IndexTuple.chunk?).map chunkSpan = chunks b node.level

theorem zip_map_zip {α β γ : Type} (l : List α) (g : α → β) (l' : List γ) :
    l.zip ((l.map g).zip l') = (l.zip l').map fun p => (p.1, g p.1, p.2) := by
  induction l generalizing l' with
  | nil => rfl
  | cons x l ih =>
    cases l' with
    | nil => rfl
    | cons y l' => simp [ih]

theorem length_neighborSizes (b : BuildParams) (level : Nat) :
    (neighborSizes b level).length = if b.inlineVectors then (chunks b level).length else 1 := by
  unfold neighborSizes
  split
  · cases hchunks : chunks b level with
    | nil => cases hchunks
    | cons primary conts => simp
  · rfl

/-- The chunks of a neighbor tuple and its continuations. -/
theorem chunks_neighbor {x : IndexTuple V Q} {c : InlineChunk Q} {cs : List (InlineChunk Q)}
    (h : x.chunk? = some c) :
    (x :: cs.map IndexTuple.cont).filterMap IndexTuple.chunk? = c :: cs := by
  rw [List.filterMap_cons_some h, List.filterMap_map]
  exact congrArg (c :: ·) List.filterMap_some

/-- **The tuples of a node**, if they can be made at all. -/
theorem neighborTuples_spec [Inhabited Q] {tuples : List (IndexTuple V Q × Nat)}
    (hslots : node.nbr.length = t2TotalSlots node.level b.mEff b.payloadM)
    (hplace : place.nbr.length = (neighborSizes b node.level).length)
    (h : neighborTuples oc b nodes places node place = some tuples) :
    NodeTuples oc b nodes places node place tuples := by
  have hlengths := length_neighborSizes b node.level
  have hlayer := length_layer (Nat.zero_le node.level) hslots
  unfold neighborTuples at h
  by_cases hinline : b.inlineVectors = true
  · rw [if_pos hinline] at h
    rw [if_pos hinline] at hlengths
    obtain ⟨entries, hentries, h⟩ := Option.bind_eq_some_iff.mp h
    -- the entries of each chunk
    let slots := fun chunk : Nat × Nat => ((node.layer b 0).drop chunk.1).take chunk.2
    have hchunks : ∀ chunk ∈ chunks b node.level, ∀ y,
        chunkEntries oc b nodes places node chunk = some y →
          y = (slots chunk).map (slotEntry oc b nodes places) := by
      intro chunk hchunk y hy
      rw [chunkEntries_eq hchunk] at hy
      exact (mapM_eq_some (fun _ _ _ => fillSlot_eq) hy).1
    obtain ⟨rfl, -⟩ := mapM_eq_some hchunks hentries
    dsimp only at h
    rw [zip_map_zip, List.map_map] at h
    have hnexts : (chunks b node.level).length = (place.nbr.tail ++ [Tid.invalid]).length := by
      have hpos : 0 < (chunks b node.level).length := by simp [chunks]
      rw [List.length_append, List.length_tail, hplace, hlengths, List.length_singleton]
      omega
    have hne : place.nbr ≠ [] := by
      rintro hnil
      rw [hnil, hlengths] at hplace
      simp [chunks] at hplace
    split at h
    · cases h
    · rename_i primary conts hlist
      cases h
      have hlen : (primary :: conts).length = (chunks b node.level).length := by
        rw [← hlist, List.length_map, List.length_zip, ← hnexts, Nat.min_self]
      have htuples : ∀ first : IndexTuple V Q, ((first :: conts.map IndexTuple.cont).zip
          (neighborSizes b node.level)).map Prod.fst = first :: conts.map IndexTuple.cont := by
        intro first
        rw [List.map_fst_zip]
        rw [hlengths, ← hlen]
        simp
      have hfst : ((chunks b node.level).zip (place.nbr.tail ++ [Tid.invalid])).map Prod.fst =
          chunks b node.level := List.map_fst_zip (Nat.le_of_eq hnexts)
      refine ⟨?_, fun hplain => ?_, fun _ => ⟨primary, conts, htuples _, ?_, ?_, ?_⟩, fun _ => ?_⟩
      · rw [List.map_snd_zip]
        rw [hlengths, ← hlen]
        simp
      · rw [hinline] at hplain
        cases hplain
      · rw [← hlist, List.map_map, List.tail_append_of_ne_nil hne]
        exact List.map_snd_zip (Nat.le_of_eq hnexts.symm)
      · calc (primary :: conts).flatMap InlineChunk.entries
            = (((chunks b node.level).zip (place.nbr.tail ++ [Tid.invalid])).map Prod.fst).flatMap
                fun chunk => (slots chunk).map (slotEntry oc b nodes places) := by
              rw [← hlist, List.flatMap_map, List.flatMap_map]
              rfl
          _ = ((node.layer b 0).take (inlineCovered b node.level)).map
                (slotEntry oc b nodes places) := by
              rw [hfst, ← List.map_flatMap, chunks_flatMap b node.level (node.layer b 0)]
      · intro c' hc'
        rw [← hlist] at hc'
        obtain ⟨p, -, rfl⟩ := List.mem_map.mp hc'
        dsimp only [Function.comp_apply]
        rw [List.length_map, List.length_take, ← List.take_eq_take_min]
      · rw [htuples, chunks_neighbor rfl, ← hlist, List.map_map]
        conv_rhs => rw [← hfst]
        apply List.map_congr_left
        intro p hp
        have hbound := chunks_bound (List.of_mem_zip hp).1
        refine Prod.ext rfl ?_
        show ((slots p.1).map (slotEntry oc b nodes places)).length = p.1.2
        rw [List.length_map, List.length_take, List.length_drop, hlayer, t2LayerM_zero]
        unfold t2L0Width at hbound
        omega
  · rw [if_neg hinline] at h
    cases h
    have hsizes : neighborSizes b node.level = [neighborTupleSize node.level b.mEff b.payloadM] := by
      unfold neighborSizes
      rw [if_neg hinline]
    refine ⟨?_, fun _ => ?_, fun h => absurd h hinline, fun h => absurd h hinline⟩
    · rw [hsizes]
      rfl
    · rw [hsizes]
      rfl

/-- A node's tuples can be made if its inline entries can. -/
theorem neighborTuples_isSome [Inhabited Q] :
    (neighborTuples oc b nodes places node place).isSome ↔ (b.inlineVectors →
      ∀ slot ∈ (node.layer b 0).take (inlineCovered b node.level),
        ∀ p ∈ target nodes places slot, oc.dim p.1.vec = b.dims) := by
  by_cases hinline : b.inlineVectors = true
  · have hcovered := chunks_flatMap b node.level (node.layer b 0)
    simp only [hinline, forall_true_left]
    constructor
    · intro h slot hslot p hp
      obtain ⟨tuples, h⟩ := Option.isSome_iff_exists.mp h
      unfold neighborTuples at h
      rw [if_pos hinline] at h
      obtain ⟨entries, hentries, -⟩ := Option.bind_eq_some_iff.mp h
      rw [← hcovered] at hslot
      obtain ⟨chunk, hchunk, hslot⟩ := List.mem_flatMap.mp hslot
      -- the chunk of the slot has been filled
      obtain ⟨-, hall⟩ := mapM_eq_some (g := fun chunk => (chunkEntries oc b nodes places node
        chunk).getD []) (fun _ _ y hy => by rw [hy]; rfl) hentries
      have hfilled := hall chunk hchunk
      rw [chunkEntries_eq hchunk] at hfilled
      obtain ⟨-, hslots⟩ := mapM_eq_some (fun _ _ _ => fillSlot_eq) hfilled
      have hsome : (fillSlot oc b nodes places slot).isSome := by
        rw [hslots slot hslot]
        rfl
      exact fillSlot_isSome.mp hsome p hp
    · intro h
      have hentries : ((chunks b node.level).mapM (chunkEntries oc b nodes places node)).isSome := by
        apply mapM_isSome
        intro chunk hchunk
        rw [chunkEntries_eq hchunk]
        apply mapM_isSome
        intro slot hslot
        apply fillSlot_isSome.mpr
        apply h slot
        rw [← hcovered]
        exact List.mem_flatMap.mpr ⟨chunk, hchunk, hslot⟩
      obtain ⟨entries, hentries⟩ := Option.isSome_iff_exists.mp hentries
      have hlength : entries.length = (chunks b node.level).length := by
        obtain ⟨rfl, -⟩ := mapM_eq_some (g := fun chunk => (chunkEntries oc b nodes places node
          chunk).getD []) (fun _ _ y hy => by rw [hy]; rfl) hentries
        rw [List.length_map]
      unfold neighborTuples
      dsimp only
      rw [if_pos hinline, hentries]
      dsimp only [Option.bind_eq_bind, Option.bind_some]
      cases entries with
      | nil => simp [chunks] at hlength
      | cons entry entries =>
        obtain ⟨first, rest, hchunks⟩ : ∃ first rest, chunks b node.level = first :: rest :=
          ⟨_, _, rfl⟩
        rw [hchunks]
        cases place.nbr.tail <;> rfl
  · unfold neighborTuples
    rw [if_neg hinline]
    simp [hinline]

/-! ### Simulated places -/

theorem placeAll_append (sp : SimPage) (sizes sizes' : List Nat) :
    sp.placeAll (sizes ++ sizes') =
      ((sp.placeAll sizes).1 ++ ((sp.placeAll sizes).2.placeAll sizes').1,
        ((sp.placeAll sizes).2.placeAll sizes').2) := by
  induction sizes generalizing sp with
  | nil => rfl
  | cons size sizes ih =>
    simp only [List.cons_append, SimPage.placeAll, ih]

theorem placeNeighbors_eq (b : BuildParams) (sp : SimPage) (nodes : List (BuildNode V)) :
    (placeNeighbors b sp nodes).1.flatten =
        (sp.placeAll (nodes.flatMap fun node => neighborSizes b node.level)).1 ∧
      (placeNeighbors b sp nodes).2 =
        (sp.placeAll (nodes.flatMap fun node => neighborSizes b node.level)).2 := by
  induction nodes generalizing sp with
  | nil => exact ⟨rfl, rfl⟩
  | cons node nodes ih =>
    obtain ⟨hts, hsp⟩ := ih (sp.placeAll (neighborSizes b node.level)).2
    rw [List.flatMap_cons, placeAll_append]
    refine ⟨?_, hsp⟩
    rw [← hts]
    rfl

theorem placeNeighbors_length (b : BuildParams) (sp : SimPage) (nodes : List (BuildNode V)) :
    ∀ p ∈ nodes.zip (placeNeighbors b sp nodes).1,
      p.2.length = (neighborSizes b p.1.level).length := by
  induction nodes generalizing sp with
  | nil => nofun
  | cons node nodes ih =>
    intro p hp
    obtain rfl | hp := List.mem_cons.mp hp
    · exact length_placeAll sp _
    · exact ih _ p hp

theorem memPreassignTids_nbr (oc : Opclass V Q D) (b : BuildParams) (nodes : List (BuildNode V)) :
    (memPreassignTids oc b nodes).map Places.nbr = (placeNeighbors b SimPage.init nodes).1 := by
  unfold memPreassignTids
  rw [List.map_map]
  apply List.map_fst_zip
  rw [length_placeNeighbors, length_placeAll, List.length_map]

theorem memPreassignTids_elem (oc : Opclass V Q D) (b : BuildParams) (nodes : List (BuildNode V)) :
    (memPreassignTids oc b nodes).map Places.elem = ((placeNeighbors b SimPage.init nodes).2.placeAll
      (nodes.map fun node => elementTupleSize (oc.vsize node.vec))).1 := by
  unfold memPreassignTids
  rw [List.map_map]
  apply List.map_snd_zip
  rw [length_placeNeighbors, length_placeAll, List.length_map]

/-- The nodes with their places. -/
theorem zip_places (oc : Opclass V Q D) (b : BuildParams) (nodes : List (BuildNode V)) :
    (nodes.zip (memPreassignTids oc b nodes)).map Prod.fst = nodes ∧
      (nodes.zip (memPreassignTids oc b nodes)).map Prod.snd = memPreassignTids oc b nodes := by
  constructor
  · apply List.map_fst_zip
    rw [length_memPreassignTids]
  · apply List.map_snd_zip
    rw [length_memPreassignTids]

theorem length_nbr {p : BuildNode V × Places} (hp : p ∈ nodes.zip (memPreassignTids oc b nodes)) :
    p.2.nbr.length = (neighborSizes b p.1.level).length := by
  have hmem : (p.1, p.2.nbr) ∈ nodes.zip (placeNeighbors b SimPage.init nodes).1 := by
    rw [← memPreassignTids_nbr oc, List.zip_map_right]
    exact List.mem_map.mpr ⟨p, hp, rfl⟩
  exact placeNeighbors_length b SimPage.init nodes _ hmem

/-- **The places are those of one simulation over all tuples.** -/
theorem flushPlaces_eq (oc : Opclass V Q D) (b : BuildParams) (nodes : List (BuildNode V)) :
    flushPlaces (nodes.zip (memPreassignTids oc b nodes)) =
      (SimPage.init.placeAll (flushSizes oc b nodes)).1 := by
  obtain ⟨hts, hsp⟩ := placeNeighbors_eq b SimPage.init nodes
  have hall := (zip_places oc b nodes).2
  have hnbr : (nodes.zip (memPreassignTids oc b nodes)).flatMap (fun p => p.2.nbr) =
      (placeNeighbors b SimPage.init nodes).1.flatten := by
    rw [← memPreassignTids_nbr oc]
    conv_rhs => rw [← hall]
    rw [List.map_map]
    rfl
  have helem : ((nodes.zip (memPreassignTids oc b nodes)).map fun p => p.2.elem) =
      (memPreassignTids oc b nodes).map Places.elem := by
    conv_rhs => rw [← hall]
    rw [List.map_map]
    rfl
  unfold flushPlaces flushSizes
  rw [hnbr, helem, memPreassignTids_elem, placeAll_append, hts, hsp]

/-! ### The targets of slots -/

/-- A slot that names a node names it with its places. -/
theorem target_some (oc : Opclass V Q D) (b : BuildParams) {nodes : List (BuildNode V)} {slot : Int}
    (hpos : 0 ≤ slot) (hlt : slot < nodes.length) :
    ∃ p ∈ target nodes (memPreassignTids oc b nodes) slot,
      nodes[slot.toNat]? = some p.1 ∧ p ∈ nodes.zip (memPreassignTids oc b nodes) := by
  have hnode : slot.toNat < nodes.length := by omega
  have hplace : slot.toNat < (memPreassignTids oc b nodes).length := by
    rwa [length_memPreassignTids]
  refine ⟨(nodes[slot.toNat], (memPreassignTids oc b nodes)[slot.toNat]), ?_, ?_, ?_⟩
  · unfold target
    rw [if_neg (by omega), List.getElem?_eq_getElem hnode, List.getElem?_eq_getElem hplace]
    rfl
  · exact List.getElem?_eq_getElem hnode
  · rw [← List.getElem_zip (h := by simpa using ⟨hnode, hplace⟩)]
    exact List.getElem_mem _

theorem dims_target {slot : Int} :
    (∀ p ∈ target nodes (memPreassignTids oc b nodes) slot, oc.dim p.1.vec = b.dims) ↔
      (0 ≤ slot → ∀ t ∈ nodes[slot.toNat]?, oc.dim t.vec = b.dims) := by
  constructor
  · intro h hpos t ht
    have hlt := (List.getElem?_eq_some_iff.mp ht).1
    obtain ⟨p, hp, hnode, -⟩ := target_some oc b hpos (by omega : slot < nodes.length)
    rw [ht] at hnode
    cases hnode
    exact h p hp
  · intro h p hp
    unfold target at hp
    split at hp
    · cases hp
    · obtain ⟨t, ht, hp⟩ := Option.bind_eq_some_iff.mp hp
      obtain ⟨place, -, hp⟩ := Option.bind_eq_some_iff.mp hp
      cases hp
      exact h (by omega) t ht

/-! ### The appends of a flush -/

theorem appendTuples_append (r : Relation V Q) (l l' : List (IndexTuple V Q × Nat)) :
    appendTuples r (l ++ l') = (appendTuples r l).bind fun r => appendTuples r l' :=
  List.foldlM_append

/-- Pass 1 is the appends of all its tuples. -/
theorem foldlM_appendTuples {α : Type} (f : α → Option (List (IndexTuple V Q × Nat))) (all : List α)
    (r : Relation V Q) :
    (all.foldlM (fun r p => do
      let tuples ← f p
      appendTuples r tuples) r) = (all.mapM f).bind fun l => appendTuples r l.flatten := by
  induction all generalizing r with
  | nil => rfl
  | cons p all ih =>
    rw [List.foldlM_cons, List.mapM_cons]
    cases f p with
    | none => rfl
    | some tuples =>
      change ((appendTuples r tuples).bind fun r => all.foldlM _ r) =
        ((all.mapM f).bind fun l => some (tuples :: l)).bind fun l => appendTuples r l.flatten
      cases hfirst : appendTuples r tuples with
      | none =>
        cases all.mapM f with
        | none => rfl
        | some l =>
          change none = appendTuples r (tuples ++ l.flatten)
          rw [appendTuples_append, hfirst]
          rfl
      | some r₁ =>
        change all.foldlM _ r₁ = _
        rw [ih]
        cases all.mapM f with
        | none => rfl
        | some l =>
          change appendTuples r₁ l.flatten = appendTuples r (tuples ++ l.flatten)
          rw [appendTuples_append, hfirst]
          rfl

/-- **A flush is its appends, pass 3 and the entry point.** -/
theorem memFlush_eq [Inhabited Q] {g : BuildGraph V} (hentry : g.entryId < g.nodes.length)
    (s : Disk I V Q) :
    memFlush oc b g s = (flushTuples oc b g.nodes (memPreassignTids oc b g.nodes)).bind fun tuples =>
      (appendAll s.relation tuples).map fun p =>
        endFlush b g (memPreassignTids oc b g.nodes) s p.2 := by
  by_cases hnil : g.nodes = []
  · rw [hnil, List.length_nil, Nat.cast_zero] at hentry
    unfold memFlush endFlush target
    rw [if_pos hnil, hnil]
    dsimp only
    rw [if_pos hentry]
    rfl
  unfold memFlush flushTuples
  rw [if_neg hnil]
  dsimp only
  rw [foldlM_appendTuples]
  cases (g.nodes.zip (memPreassignTids oc b g.nodes)).mapM fun p =>
      neighborTuples oc b g.nodes (memPreassignTids oc b g.nodes) p.1 p.2 with
  | none => rfl
  | some nbrs =>
    dsimp only [Option.bind_some, Option.map_some, Option.bind_eq_bind]
    rw [← Option.bind_assoc, ← appendTuples_append, appendTuples_eq]
    cases appendAll s.relation _ with
    | none => rfl
    | some p =>
      unfold endFlush
      dsimp only [Option.map_some, Option.bind_some]
      cases target g.nodes (memPreassignTids oc b g.nodes) g.entryId <;> rfl

/-! ### Pass 3 -/

/-- The slots of one node are patched, and nothing else. -/
theorem patchSlots_spec (nodes : List (BuildNode V)) (places : List Places)
    {p : BuildNode V × Places} {r : Relation V Q} {inline? : Option (InlineChunk Q)}
    (hslots : p.1.nbr.length = t2TotalSlots p.1.level b.mEff b.payloadM)
    (hn : r.item p.2.nbrtid = some (.neighbor
      ⟨List.replicate (t2TotalSlots p.1.level b.mEff b.payloadM) Tid.invalid, inline?⟩)) :
    (patchSlots b nodes places r p).item p.2.nbrtid =
        some (.neighbor ⟨p.1.nbr.map (slotTid nodes places), inline?⟩) ∧
      (∀ t ≠ p.2.nbrtid, (patchSlots b nodes places r p).item t = r.item t) ∧
      (patchSlots b nodes places r p).metaPage = r.metaPage := by
  unfold patchSlots
  rw [← hslots] at hn ⊢
  -- the slots below `n` are patched
  have hprefix : ∀ n ≤ p.1.nbr.length, ∀ r' : Relation V Q,
      r' = (List.range n).foldl (fun r k =>
        match (p.1.nbr[k]?).bind (target nodes places) with
        | some q => r.update p.2.nbrtid (setSlot k q.2.elem)
        | none => r) r →
      r'.item p.2.nbrtid = some (.neighbor ⟨(p.1.nbr.take n).map (slotTid nodes places) ++
        List.replicate (p.1.nbr.length - n) Tid.invalid, inline?⟩) ∧
      (∀ t ≠ p.2.nbrtid, r'.item t = r.item t) ∧ r'.metaPage = r.metaPage := by
    intro n
    induction n with
    | zero =>
      rintro - r' rfl
      exact ⟨hn, fun _ _ => rfl, rfl⟩
    | succ n ih =>
      rintro hle r' rfl
      obtain ⟨hself, hother, hmeta⟩ := ih (by omega) _ rfl
      have hlt : n < p.1.nbr.length := by omega
      rw [List.range_succ, List.foldl_append]
      simp only [List.foldl_cons, List.foldl_nil]
      have htake : (p.1.nbr.take (n + 1)).map (slotTid nodes places) =
          (p.1.nbr.take n).map (slotTid nodes places) ++ [slotTid nodes places p.1.nbr[n]] := by
        rw [List.take_add_one, List.getElem?_eq_getElem hlt, List.map_append]
        rfl
      have hrest : List.replicate (p.1.nbr.length - n) Tid.invalid =
          Tid.invalid :: List.replicate (p.1.nbr.length - (n + 1)) Tid.invalid := by
        rw [← List.replicate_succ]
        congr 1
        omega
      have hbind : (p.1.nbr[n]?).bind (target nodes places) = target nodes places p.1.nbr[n] := by
        rw [List.getElem?_eq_getElem hlt]
        rfl
      rw [hbind]
      cases htarget : target nodes places p.1.nbr[n] with
      | none =>
        refine ⟨?_, hother, hmeta⟩
        have hinvalid : slotTid nodes places p.1.nbr[n] = Tid.invalid := by
          unfold slotTid
          rw [htarget]
        rw [htake, hinvalid, List.append_assoc, List.singleton_append, ← hrest]
        exact hself
      | some q =>
        refine ⟨?_, fun t ht => ?_, ?_⟩
        · have helem : slotTid nodes places p.1.nbr[n] = q.2.elem := by
            unfold slotTid
            rw [htarget]
          dsimp only
          rw [Relation.item_update, if_pos rfl, hself, htake, helem, hrest]
          have hlength : ((p.1.nbr.take n).map (slotTid nodes places)).length = n := by
            rw [List.length_map, List.length_take]
            omega
          change some (IndexTuple.neighbor ⟨List.set _ n q.2.elem, inline?⟩) = _
          rw [List.set_append_right _ _ (by omega), hlength, Nat.sub_self, List.set_cons_zero,
            List.append_assoc, List.singleton_append]
        · dsimp only
          rw [Relation.item_update, if_neg ht]
          exact hother t ht
        · dsimp only
          rw [Relation.metaPage_update]
          exact hmeta
  obtain ⟨hself, hother, hmeta⟩ := hprefix p.1.nbr.length (Nat.le_refl _) _ rfl
  rw [List.take_length, Nat.sub_self, List.replicate_zero, List.append_nil] at hself
  exact ⟨hself, hother, hmeta⟩

/-- **Pass 3**: the slots of every node are patched, and nothing else. -/
theorem foldl_patchSlots (nodes : List (BuildNode V)) (places : List Places)
    {all : List (BuildNode V × Places)} {r : Relation V Q}
    (hnodup : (all.map fun p => p.2.nbrtid).Nodup)
    (hslots : ∀ p ∈ all, p.1.nbr.length = t2TotalSlots p.1.level b.mEff b.payloadM)
    {inline? : BuildNode V × Places → Option (InlineChunk Q)}
    (hn : ∀ p ∈ all, r.item p.2.nbrtid = some (.neighbor
      ⟨List.replicate (t2TotalSlots p.1.level b.mEff b.payloadM) Tid.invalid, inline? p⟩)) :
    (∀ p ∈ all, (all.foldl (patchSlots b nodes places) r).item p.2.nbrtid =
        some (.neighbor ⟨p.1.nbr.map (slotTid nodes places), inline? p⟩)) ∧
      (∀ t ∉ all.map fun p => p.2.nbrtid,
        (all.foldl (patchSlots b nodes places) r).item t = r.item t) ∧
      (all.foldl (patchSlots b nodes places) r).metaPage = r.metaPage := by
  induction all generalizing r with
  | nil => exact ⟨nofun, fun _ _ => rfl, rfl⟩
  | cons p all ih =>
    rw [List.map_cons, List.nodup_cons] at hnodup
    obtain ⟨hself, hother, hmeta⟩ := patchSlots_spec nodes places (hslots p List.mem_cons_self)
      (hn p List.mem_cons_self)
    have hrest : ∀ q ∈ all, (patchSlots b nodes places r p).item q.2.nbrtid = some (.neighbor
        ⟨List.replicate (t2TotalSlots q.1.level b.mEff b.payloadM) Tid.invalid, inline? q⟩) := by
      intro q hq
      rw [hother q.2.nbrtid]
      · exact hn q (List.mem_cons_of_mem p hq)
      · intro heq
        exact hnodup.1 (heq ▸ List.mem_map.mpr ⟨q, hq, rfl⟩)
    obtain ⟨hself', hother', hmeta'⟩ :=
      ih hnodup.2 (fun q hq => hslots q (List.mem_cons_of_mem p hq)) hrest
    rw [List.foldl_cons]
    refine ⟨fun q hq => ?_, fun t ht => ?_, hmeta'.trans hmeta⟩
    · obtain rfl | hq := List.mem_cons.mp hq
      · rw [hother' _ hnodup.1]
        exact hself
      · exact hself' q hq
    · rw [List.map_cons, List.mem_cons, not_or] at ht
      rw [hother' t ht.2, hother t ht.1]

/-! ### Reading back -/

theorem chain_of {r : Relation V Q} {t : Tid} {ts : List Tid} {cs : List (InlineChunk Q)}
    (hnext : t :: cs.map InlineChunk.next = ts ++ [Tid.invalid])
    (hitems : ∀ q ∈ ts.zip cs, r.item q.1 = some (.cont q.2)) : Chain r t cs := by
  induction cs generalizing t ts with
  | nil =>
    cases ts with
    | nil =>
      cases hnext
      exact .nil rfl
    | cons u ts => simp at hnext
  | cons c cs ih =>
    cases ts with
    | nil => simp at hnext
    | cons u ts =>
      obtain ⟨rfl, htail⟩ := List.cons.inj hnext
      exact .cons (hitems (t, c) List.mem_cons_self)
        (ih htail fun q hq => hitems q (List.mem_cons_of_mem _ hq))

theorem slotRange_map {α β : Type} (f : α → β) (l : List α) (start : Int) (len : Nat) :
    slotRange (l.map f) start len = (slotRange l start len).map (List.map f) := by
  unfold slotRange
  rw [List.length_map]
  split
  · rw [← List.map_drop, ← List.map_take]
    rfl
  · rfl

theorem slotRange_layer {lc : Nat} (hlc : lc ≤ node.level)
    (hslots : node.nbr.length = t2TotalSlots node.level b.mEff b.payloadM) :
    slotRange node.nbr (hnswNeighborStart b.mEff node.level lc) (t2LayerM lc b.mEff b.payloadM) =
      some (node.layer b lc) := by
  rw [hnswNeighborStart_eq hlc, slotRange_eq]
  · rfl
  · rw [hslots]
    exact layer_end_le hlc b.mEff b.payloadM

/-! ### The tuples of a flush -/

theorem dvd_maxAlign (n : Nat) : 8 ∣ maxAlign n := ⟨(n + 7) / 8, Nat.mul_comm _ _⟩

theorem maxAlign_of_dvd {n : Nat} (h : 8 ∣ n) : maxAlign n = n := by
  unfold maxAlign
  omega

/-- The sizes of neighbor tuples and continuations are aligned. -/
theorem fitsPage_neighborSizes {level size : Nat} (h : size ∈ neighborSizes b level)
    (hle : size ≤ hnswMaxSize) : FitsPage size := by
  have hentries : ∀ n, 8 ∣ n * inlineEntrySize b.dims := fun n =>
    Dvd.dvd.mul_left (dvd_maxAlign (40 + b.dims)) n
  unfold neighborSizes at h
  split at h
  · split at h
    · cases h
    · obtain rfl | h := List.mem_cons.mp h
      · refine ⟨maxAlign_of_dvd ?_, ?_, hle⟩
        · exact Nat.dvd_add (Nat.dvd_add (dvd_maxAlign _) ⟨2, rfl⟩) (hentries _)
        · unfold inlineNtupSize
          omega
      · obtain ⟨chunk, -, rfl⟩ := List.mem_map.mp h
        refine ⟨maxAlign_of_dvd ?_, ?_, hle⟩
        · exact Nat.dvd_add ⟨3, rfl⟩ (hentries _)
        · unfold inlineContSize
          omega
  · rw [List.mem_singleton] at h
    subst h
    exact .maxAlign (by omega) hle

theorem fitsPage_flushSizes {g : BuildGraph V} (hg : g.Flushable oc b) {size : Nat}
    (h : size ∈ flushSizes oc b g.nodes) : FitsPage size := by
  obtain h | h := List.mem_append.mp h
  · obtain ⟨node, hnode, h⟩ := List.mem_flatMap.mp h
    exact fitsPage_neighborSizes h (hg.neighbors node hnode size h)
  · obtain ⟨node, hnode, rfl⟩ := List.mem_map.mp h
    exact .maxAlign (by omega) (hg.elements node hnode)

/-- The tuples of a flush are those of its nodes, and its elements. -/
theorem flushTuples_spec [Inhabited Q] {tuples : List (IndexTuple V Q × Nat)}
    (hslots : ∀ node ∈ nodes, node.nbr.length = t2TotalSlots node.level b.mEff b.payloadM)
    (h : flushTuples oc b nodes (memPreassignTids oc b nodes) = some tuples) :
    ∃ f : BuildNode V × Places → List (IndexTuple V Q × Nat),
      (∀ p ∈ nodes.zip (memPreassignTids oc b nodes),
        NodeTuples oc b nodes (memPreassignTids oc b nodes) p.1 p.2 (f p)) ∧
      tuples = (nodes.zip (memPreassignTids oc b nodes)).flatMap f ++
        (nodes.zip (memPreassignTids oc b nodes)).map fun p =>
          (.element (p.1.element p.2), elementTupleSize (oc.vsize p.1.vec)) := by
  obtain ⟨nbrs, hnbrs, rfl⟩ := Option.map_eq_some_iff.mp h
  let f := fun p : BuildNode V × Places =>
    (neighborTuples oc b nodes (memPreassignTids oc b nodes) p.1 p.2).getD []
  obtain ⟨rfl, hall⟩ := mapM_eq_some (g := f) (fun _ _ y hy => by
    show y = (neighborTuples oc b nodes (memPreassignTids oc b nodes) _ _).getD []
    rw [hy]
    rfl) hnbrs
  refine ⟨f, fun p hp => ?_, rfl⟩
  exact neighborTuples_spec (hslots p.1 (List.of_mem_zip hp).1) (length_nbr hp) (hall p hp)

theorem flushTuples_sizes [Inhabited Q] {tuples : List (IndexTuple V Q × Nat)}
    (hslots : ∀ node ∈ nodes, node.nbr.length = t2TotalSlots node.level b.mEff b.payloadM)
    (h : flushTuples oc b nodes (memPreassignTids oc b nodes) = some tuples) :
    tuples.map Prod.snd = flushSizes oc b nodes := by
  obtain ⟨f, hf, rfl⟩ := flushTuples_spec hslots h
  have hnodes := (zip_places oc b nodes).1
  have hneighbors : ((nodes.zip (memPreassignTids oc b nodes)).flatMap fun p => (f p).map Prod.snd) =
      (nodes.zip (memPreassignTids oc b nodes)).flatMap fun p => neighborSizes b p.1.level :=
    List.flatMap_congr fun p hp => (hf p hp).sizes
  unfold flushSizes
  rw [List.map_append, List.map_flatMap, hneighbors, List.map_map]
  conv_rhs => rw [← hnodes]
  rw [List.flatMap_map, List.map_map]
  rfl

/-- Tuples can be made for a graph whose dimensions match. -/
theorem flushTuples_isSome [Inhabited Q] {g : BuildGraph V} :
    (flushTuples oc b g.nodes (memPreassignTids oc b g.nodes)).isSome ↔ g.DimsMatch oc b := by
  unfold flushTuples BuildGraph.DimsMatch
  rw [Option.isSome_map]
  have hnode : ∀ p ∈ g.nodes.zip (memPreassignTids oc b g.nodes),
      ((neighborTuples oc b g.nodes (memPreassignTids oc b g.nodes) p.1 p.2).isSome ↔
        (b.inlineVectors → ∀ slot ∈ (p.1.layer b 0).take (inlineCovered b p.1.level),
          0 ≤ slot → ∀ t ∈ g.nodes[slot.toNat]?, oc.dim t.vec = b.dims)) := by
    intro p hp
    rw [neighborTuples_isSome]
    simp only [dims_target]
  constructor
  · intro h hinline node hmem
    obtain ⟨tuples, htuples⟩ := Option.isSome_iff_exists.mp h
    obtain ⟨-, hall⟩ := mapM_eq_some (g := fun p => (neighborTuples oc b g.nodes
      (memPreassignTids oc b g.nodes) p.1 p.2).getD []) (fun _ _ y hy => by rw [hy]; rfl) htuples
    rw [← (zip_places oc b g.nodes).1] at hmem
    obtain ⟨p, hp, rfl⟩ := List.mem_map.mp hmem
    have hsome : (neighborTuples oc b g.nodes (memPreassignTids oc b g.nodes) p.1 p.2).isSome := by
      rw [hall p hp]
      rfl
    exact (hnode p hp).mp hsome hinline
  · intro h
    apply mapM_isSome
    intro p hp
    exact (hnode p hp).mpr fun hinline => h hinline p.1 (List.of_mem_zip hp).1

/-! ### What pass 2 leaves -/

theorem mem_zip_flatMap {α β γ : Type} {all : List α} {f : α → List β} {g : α → List γ}
    (hlength : ∀ x ∈ all, (f x).length = (g x).length) {x : α} (hx : x ∈ all) {q : β × γ}
    (hq : q ∈ (f x).zip (g x)) : q ∈ (all.flatMap f).zip (all.flatMap g) := by
  induction all with
  | nil => cases hx
  | cons y all ih =>
    rw [List.flatMap_cons, List.flatMap_cons, List.zip_append (hlength y List.mem_cons_self)]
    obtain rfl | hx := List.mem_cons.mp hx
    · exact List.mem_append_left _ hq
    · exact List.mem_append_right _
        (ih (fun z hz => hlength z (List.mem_cons_of_mem y hz)) hx)

/-- The relation before the slots are patched: all tuples are where they were placed. -/
structure Written [Inhabited Q] (oc : Opclass V Q D) (b : BuildParams) (nodes : List (BuildNode V))
    (r : Relation V Q) (f : BuildNode V × Places → List (IndexTuple V Q × Nat)) : Prop where
  tuples : ∀ p ∈ nodes.zip (memPreassignTids oc b nodes),
    NodeTuples oc b nodes (memPreassignTids oc b nodes) p.1 p.2 (f p)
  distinct : (flushPlaces (nodes.zip (memPreassignTids oc b nodes))).Nodup
  neighbors : ∀ p ∈ nodes.zip (memPreassignTids oc b nodes),
    ∀ q ∈ p.2.nbr.zip ((f p).map Prod.fst), r.item q.1 = some q.2
  elements : ∀ p ∈ nodes.zip (memPreassignTids oc b nodes),
    r.item p.2.elem = some (.element (p.1.element p.2))

/-- **Every tuple is appended where it was placed.** -/
theorem appendAll_written [Inhabited Q] {g : BuildGraph V} (hg : g.Flushable oc b)
    {r r' : Relation V Q} (hempty : r.pages = []) {tuples : List (IndexTuple V Q × Nat)} {ts : List Tid}
    (htuples : flushTuples oc b g.nodes (memPreassignTids oc b g.nodes) = some tuples)
    (happend : appendAll r tuples = some (ts, r')) :
    ts = flushPlaces (g.nodes.zip (memPreassignTids oc b g.nodes)) ∧ r'.metaPage = r.metaPage ∧
      ∃ f, Written oc b g.nodes r' f := by
  have hsizes := flushTuples_sizes hg.slots htuples
  have hmirrors : Mirrors SimPage.init r := ⟨.inl ⟨hempty, rfl⟩⟩
  have hfits : ∀ p ∈ tuples, FitsPage p.2 := by
    intro p hp
    apply fitsPage_flushSizes hg
    rw [← hsizes]
    exact List.mem_map.mpr ⟨p, hp, rfl⟩
  obtain ⟨hts, -⟩ := hmirrors.appendAll hfits happend
  rw [hsizes, ← flushPlaces_eq] at hts
  subst hts
  have hspec := appendAll_spec happend
  obtain ⟨f, hf, rfl⟩ := flushTuples_spec hg.slots htuples
  refine ⟨rfl, hspec.metaPage, f, hf, hspec.nodup, ?_, ?_⟩
  all_goals
    have hlength : ∀ p ∈ g.nodes.zip (memPreassignTids oc b g.nodes),
        p.2.nbr.length = (f p).length := by
      intro p hp
      rw [length_nbr hp, ← (hf p hp).sizes, List.length_map]
    have hlengths : ((g.nodes.zip (memPreassignTids oc b g.nodes)).flatMap fun p => p.2.nbr).length =
        ((g.nodes.zip (memPreassignTids oc b g.nodes)).flatMap f).length := by
      rw [List.length_flatMap, List.length_flatMap]
      exact congrArg List.sum (List.map_congr_left hlength)
    have hitem := hspec.item
    unfold flushPlaces at hitem
    rw [List.zip_append hlengths] at hitem
  · intro p hp q hq
    rw [List.zip_map_right] at hq
    obtain ⟨q', hq', rfl⟩ := List.mem_map.mp hq
    exact hitem q' (List.mem_append_left _ (mem_zip_flatMap hlength hp hq'))
  · intro p hp
    apply hitem (p.2.elem, .element (p.1.element p.2), elementTupleSize (oc.vsize p.1.vec))
    apply List.mem_append_right
    rw [List.zip_map']
    exact List.mem_map.mpr ⟨p, hp, rfl⟩

/-- The primary chunk of a node's tuples. -/
def primaryOf (tuples : List (IndexTuple V Q × Nat)) : Option (InlineChunk Q) :=
  ((tuples.map Prod.fst).head?).bind IndexTuple.chunk?

theorem NodeTuples.first [Inhabited Q] {tuples : List (IndexTuple V Q × Nat)}
    (h : NodeTuples oc b nodes places node place tuples) : ∃ rest, tuples.map Prod.fst =
      .neighbor ⟨List.replicate (t2TotalSlots node.level b.mEff b.payloadM) Tid.invalid,
        primaryOf tuples⟩ :: rest := by
  unfold primaryOf
  cases hinline : b.inlineVectors with
  | false =>
    rw [h.plain hinline]
    exact ⟨[], rfl⟩
  | true =>
    obtain ⟨c, cs, heq, -⟩ := h.inline hinline
    rw [heq]
    exact ⟨cs.map .cont, rfl⟩

section
variable [Inhabited Q] {r r' : Relation V Q} {f : BuildNode V × Places → List (IndexTuple V Q × Nat)}
  {p : BuildNode V × Places}

/-- A node's first place is its neighbor tuple's. -/
theorem Written.nbr_eq (h : Written oc b nodes r f)
    (hp : p ∈ nodes.zip (memPreassignTids oc b nodes)) : p.2.nbr = p.2.nbrtid :: p.2.nbr.tail := by
  obtain ⟨rest, hfirst⟩ := (h.tuples p hp).first
  have hlength := length_nbr hp
  rw [← (h.tuples p hp).sizes, List.length_map, ← List.length_map (f := Prod.fst), hfirst] at hlength
  unfold Places.nbrtid
  cases hnbr : p.2.nbr with
  | nil =>
    rw [hnbr] at hlength
    cases hlength
  | cons t ts => rfl

theorem Written.item_nbrtid (h : Written oc b nodes r f)
    (hp : p ∈ nodes.zip (memPreassignTids oc b nodes)) : r.item p.2.nbrtid = some (.neighbor
      ⟨List.replicate (t2TotalSlots p.1.level b.mEff b.payloadM) Tid.invalid, primaryOf (f p)⟩) := by
  obtain ⟨rest, hfirst⟩ := (h.tuples p hp).first
  have hitems := h.neighbors p hp
  rw [h.nbr_eq hp, hfirst, List.zip_cons_cons] at hitems
  exact hitems _ List.mem_cons_self

theorem Written.nodup_nbrtid (h : Written oc b nodes r f) :
    ((nodes.zip (memPreassignTids oc b nodes)).map fun p => p.2.nbrtid).Nodup := by
  have hnodup := (List.nodup_append.mp h.distinct).1
  rw [List.nodup_flatMap] at hnodup
  refine List.pairwise_map.mpr (hnodup.2.imp_of_mem ?_)
  intro p q hp hq hdisjoint heq
  have hmem : ∀ {p}, p ∈ nodes.zip (memPreassignTids oc b nodes) → p.2.nbrtid ∈ p.2.nbr := by
    intro p hp
    rw [h.nbr_eq hp]
    exact List.mem_cons_self
  apply hdisjoint (hmem hp)
  rw [heq]
  exact hmem hq

/-- The chunks of a node, in a relation that has its continuations. -/
theorem Written.chain (h : Written oc b nodes r f) (hinline : b.inlineVectors = true)
    (hp : p ∈ nodes.zip (memPreassignTids oc b nodes))
    (hother : ∀ t, (∀ n, r.item t ≠ some (.neighbor n)) → r'.item t = r.item t) :
    ∃ c cs, primaryOf (f p) = some c ∧ Chain r' c.next cs ∧
      (c :: cs).map chunkSpan = chunks b p.1.level ∧
      (c :: cs).flatMap InlineChunk.entries = ((p.1.layer b 0).take (inlineCovered b p.1.level)).map
        (slotEntry oc b nodes (memPreassignTids oc b nodes)) ∧
      ∀ c' ∈ c :: cs, c'.entries = (((p.1.layer b 0).drop c'.start).take c'.entries.length).map
        (slotEntry oc b nodes (memPreassignTids oc b nodes)) := by
  obtain ⟨c, cs, hfst, hnext, hentries, hstarts⟩ := (h.tuples p hp).inline hinline
  have hspans := (h.tuples p hp).spans hinline
  rw [hfst, chunks_neighbor rfl] at hspans
  refine ⟨c, cs, ?_, ?_, hspans, hentries, hstarts⟩
  · unfold primaryOf
    rw [hfst]
    rfl
  · have hnbr := h.nbr_eq hp
    have hitems := h.neighbors p hp
    rw [hfst, hnbr, List.zip_cons_cons] at hitems
    rw [hnbr] at hnext
    apply chain_of hnext
    intro q hq
    have hitem : r.item q.1 = some (.cont q.2) := by
      apply hitems (q.1, .cont q.2) (List.mem_cons_of_mem _ _)
      rw [List.zip_map_right]
      exact List.mem_map.mpr ⟨q, hq, rfl⟩
    rw [hother q.1]
    · exact hitem
    · intro n hn
      rw [hitem] at hn
      cases hn

/-- **A node is read back** from a relation in which the slots are patched. -/
theorem Written.readsBack (h : Written oc b nodes r f)
    (hp : p ∈ nodes.zip (memPreassignTids oc b nodes))
    (hslots : p.1.nbr.length = t2TotalSlots p.1.level b.mEff b.payloadM)
    (hself : r'.item p.2.nbrtid = some (.neighbor
      ⟨p.1.nbr.map (slotTid nodes (memPreassignTids oc b nodes)), primaryOf (f p)⟩))
    (hother : ∀ t, (∀ n, r.item t ≠ some (.neighbor n)) → r'.item t = r.item t) :
    ReadsBack oc b nodes (memPreassignTids oc b nodes) r' p.1 p.2 where
  element := by
    have hitem := h.elements p hp
    rw [Relation.element_some, hother p.2.elem]
    · exact hitem
    · intro n hn
      rw [hitem] at hn
      cases hn
  neighbors := by
    refine ⟨_, Relation.neighbor_some.mpr hself, ?_, fun lc hlc => ?_, ?_⟩
    · rw [NeighborTuple.count, List.length_map, hslots]
    · rw [slotRange_map, slotRange_layer hlc hslots]
      rfl
    · split
      · rename_i hinline
        obtain ⟨c, cs, hprimary, hchain, -, hentries, hstarts⟩ := h.chain hinline hp hother
        exact ⟨c, cs, hprimary, hchain, hentries, hstarts⟩
      · rename_i hplain
        show primaryOf (f p) = none
        unfold primaryOf
        rw [(h.tuples p hp).plain (by simpa using hplain)]
        rfl

end

/-- Pass 3, from a relation in which all tuples are where they were placed. -/
theorem Written.patched [Inhabited Q] {r : Relation V Q}
    {f : BuildNode V × Places → List (IndexTuple V Q × Nat)} (h : Written oc b nodes r f)
    (hslots : ∀ node ∈ nodes, node.nbr.length = t2TotalSlots node.level b.mEff b.payloadM) :
    let r' := (nodes.zip (memPreassignTids oc b nodes)).foldl
      (patchSlots b nodes (memPreassignTids oc b nodes)) r
    (∀ p ∈ nodes.zip (memPreassignTids oc b nodes), r'.item p.2.nbrtid = some (.neighbor
      ⟨p.1.nbr.map (slotTid nodes (memPreassignTids oc b nodes)), primaryOf (f p)⟩)) ∧
    (∀ t, (∀ n, r.item t ≠ some (.neighbor n)) → r'.item t = r.item t) ∧
    r'.metaPage = r.metaPage := by
  obtain ⟨hself, hother, hmeta⟩ := foldl_patchSlots nodes (memPreassignTids oc b nodes)
    h.nodup_nbrtid (fun p hp => hslots p.1 (List.of_mem_zip hp).1) fun p hp => h.item_nbrtid hp
  refine ⟨hself, fun t ht => hother t ?_, hmeta⟩
  intro hmem
  obtain ⟨q, hq, rfl⟩ := List.mem_map.mp hmem
  exact ht _ (h.item_nbrtid hq)

/-- What a flush changes beside the meta page. -/
theorem item_endFlush (g : BuildGraph V) (s : Disk I V Q) (r : Relation V Q) (t : Tid) :
    (endFlush b g places s r).relation.item t =
      ((g.nodes.zip places).foldl (patchSlots b g.nodes places) r).item t := by
  unfold endFlush
  dsimp only
  split <;> rfl

/-- **Flush is faithful.** Into a relation that holds only the meta page, a flush that
the relation has room for fails exactly when a vector to be quantized has other
dimensions than the index; and whenever it does not fail, each tuple is where
`acorn_mem_preassign_tids` has placed it, and the graph is read back. -/
theorem flush_faithful [Inhabited Q] {g : BuildGraph V} (hg : g.Flushable oc b) {s : Disk I V Q}
    (hempty : s.relation.pages = []) (hmeta : s.relation.metaPage.hasEntry = false) :
    (g.FitsRelation oc b → ((memFlush oc b g s).isSome ↔ g.DimsMatch oc b)) ∧
      ∀ s', memFlush oc b g s = some s' → Faithful oc b g s s' := by
  rw [memFlush_eq hg.entry]
  constructor
  · intro hroom
    rw [← flushTuples_isSome]
    constructor
    · intro h
      obtain ⟨s', h⟩ := Option.isSome_iff_exists.mp h
      obtain ⟨tuples, htuples, -⟩ := Option.bind_eq_some_iff.mp h
      rw [htuples]
      rfl
    · intro h
      obtain ⟨tuples, htuples⟩ := Option.isSome_iff_exists.mp h
      have hsizes := flushTuples_sizes hg.slots htuples
      have hmirrors : Mirrors SimPage.init s.relation := ⟨.inl ⟨hempty, rfl⟩⟩
      have hfits : ∀ p ∈ tuples, FitsPage p.2 := by
        intro p hp
        apply fitsPage_flushSizes hg
        rw [← hsizes]
        exact List.mem_map.mpr ⟨p, hp, rfl⟩
      have hsome : (appendAll s.relation tuples).isSome := by
        apply hmirrors.appendAll_some hfits
        rw [hsizes]
        exact hroom
      rw [htuples, Option.bind_some, Option.isSome_map]
      exact hsome
  · intro s' h
    obtain ⟨tuples, htuples, h⟩ := Option.bind_eq_some_iff.mp h
    obtain ⟨⟨ts, r⟩, happend, rfl⟩ := Option.map_eq_some_iff.mp h
    obtain ⟨rfl, hr, f, hf⟩ := appendAll_written hg hempty htuples happend
    obtain ⟨hself, hother, hpatched⟩ := hf.patched hg.slots
    refine ⟨⟨tuples, r, htuples, happend, rfl⟩, hf.distinct, fun p hp => ?_,
      fun node hnode slot hslot hpos => target_some oc b hpos (hg.targets node hnode slot hslot), ?_⟩
    · apply hf.readsBack hp (hg.slots p.1 (List.of_mem_zip hp).1)
      · rw [item_endFlush]
        exact hself p hp
      · intro t ht
        rw [item_endFlush]
        exact hother t ht
    · split
      · rename_i hpos
        obtain ⟨p, htarget, hnode, hp⟩ := target_some oc b hpos hg.entry
        refine ⟨p, htarget, hnode, ?_, ?_⟩
        all_goals
          unfold endFlush
          rw [Option.mem_def.mp htarget]
          dsimp only [Disk.updateEntry, Disk.withRelation]
          rw [hpatched, hr, hmeta]
          rfl
      · rename_i hneg
        unfold endFlush target
        dsimp only
        rw [if_pos (by omega)]
        exact hpatched.trans hr

end

/-! ### Two nodes -/

/-- `m = 2` with a payload half, and vectors inline. -/
def pairParams : BuildParams := ⟨2, 2, 1, true⟩

/-- Two nodes that name each other, with gaps. -/
def pairGraph : BuildGraph Int :=
  ⟨[⟨0, 5, ⟨7, 1⟩, 3, [1, -1, -1, -1]⟩, ⟨0, 6, ⟨7, 2⟩, 4, [-1, -1, 0, -1]⟩], 0⟩

/-- An index of which there is only the meta page. -/
def metaOnly : Relation Int Int := ⟨createMetaPage 2 2 1 true, []⟩

def pairDisk : Disk Unit Int Int := ⟨metaOnly, .start metaOnly []⟩

theorem flush_faithful_pair : ∃ s', memFlush points pairParams pairGraph pairDisk = some s' ∧
    Faithful points pairParams pairGraph pairDisk s' := by
  have hg : pairGraph.Flushable points pairParams :=
    { slots := by decide
      targets := by decide
      entry := by decide
      neighbors := by decide
      elements := by decide }
  obtain ⟨hsome, hfaithful⟩ := flush_faithful (s := pairDisk) hg rfl (by decide)
  have hroom : pairGraph.FitsRelation points pairParams := by
    unfold BuildGraph.FitsRelation
    decide
  obtain ⟨s', hs'⟩ := Option.isSome_iff_exists.mp ((hsome hroom).mpr fun _ _ _ _ _ _ _ _ => rfl)
  exact ⟨s', hs', hfaithful s' hs'⟩

end PgAcorn.Build
