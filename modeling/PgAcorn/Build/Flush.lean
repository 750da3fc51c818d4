import PgAcorn.Build.Rows

/-! The in-memory graph of a build, and writing it to the index.

`acorn_mem_push_node` and the inserts of other participants fill the graph;
`acorn_mem_flush` assigns every tuple its place by packing pages as appends do, then
writes all neighbor tuples, all elements and the slots. A flush that ends has added
the rows of the graph's nodes (`memFlush_rows`). -/
namespace PgAcorn.Build
open Library
open PgAcorn.Filter (Datum)

section
variable {I V Q D : Type}

/-! ### Nodes -/

/-- `AcornMemNode`, as a build fills it; a negative slot is empty. -/
structure BuildNode (V : Type) where
  level : Nat
  filterVal : Datum
  heaptid : Tid
  vec : V
  nbr : List Int

/-- What a build fixes at its beginning. -/
structure BuildParams where
  mEff : Nat
  payloadM : Nat
  dims : Nat
  inlineVectors : Bool

/-- The in-memory graph. -/
structure BuildGraph (V : Type) where
  nodes : List (BuildNode V)
  entryId : Int

def BuildGraph.empty {V : Type} : BuildGraph V := ⟨[], -1⟩

/-- A new node, all its slots empty. -/
def BuildNode.new (b : BuildParams) (level : Nat) (row : Row V) (value : V) : BuildNode V :=
  ⟨level, row.filterVal, row.heaptid, value,
    List.replicate (t2TotalSlots level b.mEff b.payloadM) (-1)⟩

/-- The row a node stands for. -/
def BuildNode.row (node : BuildNode V) : IndexedRow V :=
  rowOf node.heaptid node.filterVal node.vec

def BuildGraph.rows (g : BuildGraph V) : Multiset (IndexedRow V) :=
  (g.nodes.map BuildNode.row : List (IndexedRow V))

/-! ### `acorn_mem_preassign_tids` -/

/-- `SimPage`. -/
structure SimPage where
  blkno : Nat
  pdLower : Nat
  pdUpper : Nat
  nitems : Nat

/-- `sim_page_init`. -/
def SimPage.init : SimPage := ⟨1, sizeOfPageHeaderData, blckSz - sizeOfPageOpaque, 0⟩

/-- `sim_page_fits`, with `sim_page_advance` where it says no, and `sim_page_alloc`. -/
def SimPage.place (sp : SimPage) (size : Nat) : Tid × SimPage :=
  let fits : Bool := decide ((size : Int) ≤ (sp.pdUpper : Int) - sp.pdLower - sizeOfItemId)
  let sp := if fits then sp else
    ⟨sp.blkno + 1, sizeOfPageHeaderData, blckSz - sizeOfPageOpaque, 0⟩
  (⟨sp.blkno, sp.nitems + 1⟩,
    { sp with pdLower := sp.pdLower + sizeOfItemId, pdUpper := sp.pdUpper - size
              nitems := sp.nitems + 1 })

/-- Places for tuples of some sizes, one after the other. -/
def SimPage.placeAll (sp : SimPage) : List Nat → List Tid × SimPage
  | [] => ([], sp)
  | size :: sizes =>
    let (t, sp) := sp.place size
    let (ts, sp) := sp.placeAll sizes
    (t :: ts, sp)

/-- The chunks of a node on an index with inline vectors: the first entry of each and
how many it has, the primary one first. -/
def chunks (b : BuildParams) (level : Nat) : List (Nat × Nat) :=
  let esz := inlineEntrySize b.dims
  let layer0N := t2L0Width b.mEff b.payloadM
  let n1 := min layer0N (t2InlinePrimaryCap level b.mEff b.payloadM esz)
  let contCap := t2InlineContCap esz
  let nConts := if contCap > 0 then (layer0N - n1 + contCap - 1) / contCap else 0
  (0, n1) :: (List.range nConts).map fun c =>
    (n1 + c * contCap, min (layer0N - (n1 + c * contCap)) contCap)

/-- The sizes of a node's neighbor tuple and continuation chunks. -/
def neighborSizes (b : BuildParams) (level : Nat) : List Nat :=
  let esz := inlineEntrySize b.dims
  if b.inlineVectors then
    match chunks b level with
    | [] => []
    | primary :: conts =>
      inlineNtupSize level b.mEff b.payloadM primary.2 esz ::
        conts.map fun chunk => inlineContSize chunk.2 esz
  else [neighborTupleSize level b.mEff b.payloadM]

/-- Where a node's tuples go: its neighbor tuple with the continuation chunks, and its
element. -/
structure Places where
  nbr : List Tid
  elem : Tid

def Places.nbrtid (p : Places) : Tid := p.nbr.headD Tid.invalid

/-- Pass 1. -/
def placeNeighbors (b : BuildParams) (sp : SimPage) : List (BuildNode V) → List (List Tid) × SimPage
  | [] => ([], sp)
  | node :: nodes =>
    let (ts, sp) := sp.placeAll (neighborSizes b node.level)
    let (rest, sp) := placeNeighbors b sp nodes
    (ts :: rest, sp)

/-- `acorn_mem_preassign_tids`. -/
def memPreassignTids (oc : Opclass V Q D) (b : BuildParams) (nodes : List (BuildNode V)) :
    List Places :=
  let (nbrs, sp) := placeNeighbors b SimPage.init nodes
  let elems := (sp.placeAll (nodes.map fun node => elementTupleSize (oc.vsize node.vec))).1
  (nbrs.zip elems).map fun p => ⟨p.1, p.2⟩

/-! ### `acorn_mem_flush` -/

/-- The node and the places of a slot that is not empty. -/
def target (nodes : List (BuildNode V)) (places : List Places) (slot : Int) :
    Option (BuildNode V × Places) :=
  if slot < 0 then none
  else do
    let node ← nodes[slot.toNat]?
    let place ← places[slot.toNat]?
    some (node, place)

/-- `acorn_mem_fill_inline_entry`; `none` is an error. -/
def memFillInlineEntry (oc : Opclass V Q D) (b : BuildParams) (node : BuildNode V)
    (place : Places) : Option (InlineEntry Q) :=
  if oc.dim node.vec ≠ b.dims then none
  else some
    { indextid := place.elem, heaptid := node.heaptid, nbrtid := place.nbrtid
      level := node.level, valid := true, deleted := false, filterVal := node.filterVal
      code := oc.sq8Encode b.dims node.vec }

/-- The entries of one chunk of a node. -/
def chunkEntries [Inhabited Q] (oc : Opclass V Q D) (b : BuildParams) (nodes : List (BuildNode V))
    (places : List Places) (node : BuildNode V) (chunk : Nat × Nat) : Option (List (InlineEntry Q)) :=
  let start0 := (hnswNeighborStart b.mEff node.level 0).toNat
  ((node.nbr.drop (start0 + chunk.1)).take chunk.2).mapM fun slot =>
    match target nodes places slot with
    | none => some InlineEntry.zero
    | some p => memFillInlineEntry oc b p.1 p.2

/-- The tuples of a node in pass 1, with their sizes: its neighbor tuple, whose slots
are all invalid, and its continuation chunks. -/
def neighborTuples [Inhabited Q] (oc : Opclass V Q D) (b : BuildParams) (nodes : List (BuildNode V))
    (places : List Places) (node : BuildNode V) (place : Places) :
    Option (List (IndexTuple V Q × Nat)) := do
  let slots := List.replicate (t2TotalSlots node.level b.mEff b.payloadM) Tid.invalid
  let sizes := neighborSizes b node.level
  if b.inlineVectors then
    let entries ← (chunks b node.level).mapM (chunkEntries oc b nodes places node)
    -- each chunk names the next one
    let nexts := place.nbr.tail ++ [Tid.invalid]
    let tuples := ((chunks b node.level).zip (entries.zip nexts)).map fun p =>
      (⟨p.1.1, p.2.2, p.2.1⟩ : InlineChunk Q)
    match tuples with
    | [] => none
    | primary :: conts =>
      some ((IndexTuple.neighbor ⟨slots, some primary⟩ :: conts.map IndexTuple.cont).zip sizes)
  else some ([IndexTuple.neighbor ⟨slots, none⟩].zip sizes)

/-- `acorn_append_tuple` of some tuples. -/
def appendTuples (r : Relation V Q) (tuples : List (IndexTuple V Q × Nat)) : Option (Relation V Q) :=
  tuples.foldlM (fun r p => (r.appendTuple p.1 p.2).map Prod.snd) r

/-- The element tuple of a node. -/
def BuildNode.element (node : BuildNode V) (place : Places) : ElementTuple V :=
  newElement node.level node.filterVal node.heaptid place.nbrtid node.vec

/-- Pass 3 on one node: its slots name elements. -/
def patchSlots (b : BuildParams) (nodes : List (BuildNode V)) (places : List Places)
    (r : Relation V Q) (p : BuildNode V × Places) : Relation V Q :=
  (List.range (t2TotalSlots p.1.level b.mEff b.payloadM)).foldl (fun r k =>
    match (p.1.nbr[k]?).bind (target nodes places) with
    | some q => r.update p.2.nbrtid (setSlot k q.2.elem)
    | none => r) r

/-- `acorn_mem_flush`; `none` is an error. -/
def memFlush [Inhabited Q] (oc : Opclass V Q D) (b : BuildParams) (g : BuildGraph V)
    (s : Disk I V Q) : Option (Disk I V Q) :=
  if g.nodes = [] then some s
  else do
    let places := memPreassignTids oc b g.nodes
    let all := g.nodes.zip places
    let r ← all.foldlM (fun r p => do
      let tuples ← neighborTuples oc b g.nodes places p.1 p.2
      appendTuples r tuples) s.relation
    let r ← appendTuples r (all.map fun p =>
      (.element (p.1.element p.2), elementTupleSize (oc.vsize p.1.vec)))
    let r := all.foldl (patchSlots b g.nodes places) r
    let s := s.withRelation r
    match target g.nodes places g.entryId with
    | some p => some (s.updateEntry p.2.elem p.1.level)
    | none => some s

/-! ### What a flush adds -/

theorem length_placeAll (sp : SimPage) (sizes : List Nat) :
    (sp.placeAll sizes).1.length = sizes.length := by
  induction sizes generalizing sp with
  | nil => rfl
  | cons size sizes ih => simp [SimPage.placeAll, ih]

theorem length_placeNeighbors (b : BuildParams) (sp : SimPage) (nodes : List (BuildNode V)) :
    (placeNeighbors b sp nodes).1.length = nodes.length := by
  induction nodes generalizing sp with
  | nil => rfl
  | cons node nodes ih => simp [placeNeighbors, ih]

theorem length_memPreassignTids (oc : Opclass V Q D) (b : BuildParams) (nodes : List (BuildNode V)) :
    (memPreassignTids oc b nodes).length = nodes.length := by
  simp [memPreassignTids, length_placeAll, length_placeNeighbors]

/-- Appended tuples add the rows they have. -/
theorem rows_appendTuples {tuples : List (IndexTuple V Q × Nat)} {r r' : Relation V Q}
    (h : appendTuples r tuples = some r') :
    rows r' = rows r + (tuples.filterMap fun p => tupleRow p.1 : List (IndexedRow V)) := by
  induction tuples generalizing r with
  | nil =>
    obtain rfl := Option.some.inj h
    simp
  | cons p tuples ih =>
    rw [appendTuples, List.foldlM_cons] at h
    obtain ⟨r₁, hfirst, hrest⟩ := Option.bind_eq_some_iff.mp h
    obtain ⟨⟨t, r₁⟩, happend, rfl⟩ := Option.map_eq_some_iff.mp hfirst
    rw [ih hrest, rows_appendTuple happend, List.filterMap_cons]
    cases tupleRow p.1 with
    | none => simp
    | some row =>
      rw [add_assoc]
      rfl

theorem neighborTuples_row [Inhabited Q] {oc : Opclass V Q D} {b : BuildParams}
    {nodes : List (BuildNode V)} {places : List Places} {node : BuildNode V} {place : Places}
    {tuples : List (IndexTuple V Q × Nat)}
    (h : neighborTuples oc b nodes places node place = some tuples) :
    (tuples.filterMap fun p => tupleRow p.1) = [] := by
  rw [List.filterMap_eq_nil_iff]
  intro p hp
  simp only [neighborTuples] at h
  split at h
  · obtain ⟨entries, -, h⟩ := Option.bind_eq_some_iff.mp h
    split at h
    · cases h
    · obtain rfl := Option.some.inj h
      have hmem := (List.of_mem_zip hp).1
      obtain hfirst | hconts := List.mem_cons.mp hmem
      · rw [hfirst]
        rfl
      · obtain ⟨c, -, hc⟩ := List.mem_map.mp hconts
        rw [← hc]
        rfl
  · obtain rfl := Option.some.inj h
    have hmem := (List.of_mem_zip hp).1
    rw [List.mem_singleton.mp hmem]
    rfl

theorem rows_patchSlots (b : BuildParams) (nodes : List (BuildNode V)) (places : List Places)
    (r : Relation V Q) (p : BuildNode V × Places) : rows (patchSlots b nodes places r p) = rows r := by
  unfold patchSlots
  induction List.range (t2TotalSlots p.1.level b.mEff b.payloadM) generalizing r with
  | nil => rfl
  | cons k ks ih =>
    rw [List.foldl_cons, ih]
    split
    · exact rows_update (tupleRow_setSlot _ _) _
    · rfl

/-- **A flush that ends has added the rows of the graph.** -/
theorem memFlush_rows [Inhabited Q] {oc : Opclass V Q D} {b : BuildParams} {g : BuildGraph V}
    {s s' : Disk I V Q} (h : memFlush oc b g s = some s') : diskRows s' = diskRows s + g.rows := by
  unfold memFlush at h
  split at h
  · rename_i hnil
    obtain rfl := Option.some.inj h
    simp [BuildGraph.rows, hnil]
  · obtain ⟨r₁, hpass1, h⟩ := Option.bind_eq_some_iff.mp h
    obtain ⟨r₂, hpass2, h⟩ := Option.bind_eq_some_iff.mp h
    have h₁ : rows r₁ = rows s.relation := by
      generalize hall : g.nodes.zip (memPreassignTids oc b g.nodes) = all at hpass1
      clear hall
      generalize s.relation = r at hpass1 ⊢
      induction all generalizing r with
      | nil =>
        obtain rfl := Option.some.inj hpass1
        rfl
      | cons p all ih =>
        rw [List.foldlM_cons] at hpass1
        obtain ⟨r', hfirst, hrest⟩ := Option.bind_eq_some_iff.mp hpass1
        obtain ⟨tuples, htuples, happend⟩ := Option.bind_eq_some_iff.mp hfirst
        rw [ih r' hrest, rows_appendTuples happend, neighborTuples_row htuples]
        simp
    have h₂ : rows r₂ = rows s.relation + g.rows := by
      rw [rows_appendTuples hpass2, h₁, List.filterMap_map]
      congr 2
      have hzip : (g.nodes.zip (memPreassignTids oc b g.nodes)).map Prod.fst = g.nodes := by
        apply List.map_fst_zip
        rw [length_memPreassignTids]
      conv_rhs => rw [← hzip]
      rw [List.map_map, ← List.filterMap_eq_map]
      rfl
    have h₃ : ∀ (all : List (BuildNode V × Places)) (r : Relation V Q),
        rows (all.foldl (patchSlots b g.nodes (memPreassignTids oc b g.nodes)) r) = rows r := by
      intro all
      induction all with
      | nil => intro r; rfl
      | cons p all ih =>
        intro r
        rw [List.foldl_cons, ih, rows_patchSlots]
    have h₄ : diskRows s' = rows ((g.nodes.zip (memPreassignTids oc b g.nodes)).foldl
        (patchSlots b g.nodes (memPreassignTids oc b g.nodes)) r₂) := by
      dsimp only at h
      split at h <;> obtain rfl := Option.some.inj h <;> rfl
    rw [h₄, h₃, h₂]
    rfl

end

end PgAcorn.Build
