import PgAcorn.Build.InlineChain

/-! Where the inline chunks of a neighbor tuple lie.

Flushes and inserts write chains that tile the layer-0 slots (`flushed_tiled`,
`insertElement_tiled`), in tuples that fit pages (`neighborSizes_le`). In a chunk's tuple the
entries lie behind the header, one after the other, and the scan and
`acorn_t2_inline_write_entry` find an entry at the same byte (`bytes_entry`). -/
namespace PgAcorn.Build
open Library

section
variable {I V Q D : Type}

/-! ### Chains that are written -/

section
variable {oc : Opclass V Q D} {b : BuildParams} {level : Nat}

/-- **The chains of a flush.** -/
theorem flushed_tiled [Inhabited Q] {g : BuildGraph V} (hg : g.Flushable oc b)
    (hinline : b.inlineVectors = true) {s s' : Disk I V Q} (hempty : s.relation.pages = [])
    (h : memFlush oc b g s = some s') :
    ∀ p ∈ g.nodes.zip (memPreassignTids oc b g.nodes), ∃ cs,
      TiledChain b p.1.level s'.relation p.2.nbrtid cs ∧ slotEntries cs =
        ((p.1.layer b 0).take (inlineCovered b p.1.level)).map
          (slotEntry oc b g.nodes (memPreassignTids oc b g.nodes)) := by
  intro p hp
  rw [memFlush_eq hg.entry] at h
  obtain ⟨tuples, htuples, h⟩ := Option.bind_eq_some_iff.mp h
  obtain ⟨⟨ts, r⟩, happend, rfl⟩ := Option.map_eq_some_iff.mp h
  obtain ⟨rfl, -, f, hf⟩ := appendAll_written hg hempty htuples happend
  obtain ⟨hself, hother, -⟩ := hf.patched hg.slots
  have hitem : ∀ t, (endFlush b g (memPreassignTids oc b g.nodes) s r).relation.item t = _ :=
    item_endFlush g s r
  obtain ⟨c, cs, hprimary, hchain, hspans, hentries, -⟩ :=
    hf.chain hinline hp fun t ht => (hitem t).trans (hother t ht)
  have hneighbor := (hitem p.2.nbrtid).trans (hself p hp)
  refine ⟨c :: cs, ⟨⟨_, Relation.neighbor_some.mpr hneighbor, ?_⟩, ⟨?_, hchain⟩, hspans⟩, hentries⟩
  · rw [NeighborTuple.count, List.length_map]
    exact hg.slots p.1 (List.of_mem_zip hp).1
  · rw [hneighbor]
    exact hprimary

/-- The continuations of an insert, last to first: they go from a slot to the end. -/
theorem appendConts_exec {lentries : List (InlineEntry Q)} {first cap esz : Nat} (k : Nat)
    {next t : Tid} {cs : List (InlineChunk Q)} {s s' : Disk I V Q}
    (hnext : Chain s.relation next cs)
    (h : (appendConts lentries first cap esz k next).exec s = some (t, s')) :
    ∃ cs', Chain s'.relation t (cs' ++ cs) ∧
      cs'.map chunkSpan = (List.range k).map (fun c =>
        (first + c * cap, min (lentries.length - (first + c * cap)) cap)) ∧
      slotEntries cs' = (lentries.drop first).take (k * cap) := by
  induction k generalizing next cs s with
  | zero =>
    obtain ⟨rfl, rfl⟩ := Prod.mk.inj (Option.some.inj h)
    refine ⟨[], hnext, rfl, ?_⟩
    rw [Nat.zero_mul, List.take_zero]
    rfl
  | succ k ih =>
    unfold appendConts at h
    dsimp only at h
    rw [Prog.bind_eq, Prog.exec_bind] at h
    obtain ⟨⟨u, s₁⟩, happend, h⟩ := Option.bind_eq_some_iff.mp h
    have happended := appendTuple_appended (by exact fun _ _ => rfl) happend
    generalize hc : (⟨first + k * cap, next, (lentries.drop (first + k * cap)).take cap⟩ :
      InlineChunk Q) = c at happended
    have hchain : Chain s₁.relation u (c :: cs) := by
      refine .cons happended.item_self ?_
      rw [← hc]
      exact hnext.imp fun t c => happended.item_of_item
    obtain ⟨cs', hcs', hspans, hentries⟩ := ih hchain h
    refine ⟨cs' ++ [c], ?_, ?_, ?_⟩
    · rw [List.append_assoc]
      exact hcs'
    · rw [List.map_append, hspans, List.range_succ, List.map_append]
      congr 1
      rw [← hc, List.map_singleton, List.map_singleton, chunkSpan, List.length_take, List.length_drop,
        Nat.min_comm]
    · show (cs' ++ [c]).flatMap InlineChunk.entries = _
      rw [List.flatMap_append, List.flatMap_singleton, ← hc]
      show slotEntries cs' ++ (lentries.drop (first + k * cap)).take cap = _
      rw [hentries, Nat.succ_mul, List.take_add, List.drop_drop]

/-- What an insert gathers: an entry for each slot, and the relation stays as it is. -/
theorem gatherEntries_exec [Inhabited Q] {dims : Nat} {ts : List Tid} {s s' : Disk I V Q}
    {lentries : List (InlineEntry Q)}
    (h : (ts.mapM (gatherEntry oc dims) : Prog (Disk I V Q) _).exec s = some (lentries, s')) :
    s'.relation = s.relation ∧ lentries.length = ts.length := by
  refine ⟨(Prog.Keeps.mapM (gatherEntry_keeps dims) ts).exec h, ?_⟩
  exact Prog.length_of_exec_mapM h

/-- What an insert and the meta page make of a new element's tuples. -/
def Inserting.params {V : Type} (ins : Inserting V) (p : MetaPage) : BuildParams :=
  ⟨ins.mEff, ins.payloadM, p.dimensions, p.inlineVectors⟩

/-- **The chain of a new element**, with the entries that were gathered. -/
theorem writeNeighborTuple_tiled [Inhabited Q] {ins : Inserting V} {i : I} {p : MetaPage}
    {ntids : List Tid} {s s' : Disk I V Q} {t : Tid} (hinline : p.inlineVectors = true)
    (hwidth : ntids.length = ins.slots)
    (h : (writeNeighborTuple oc ins i p ntids).exec s = some (t, s')) :
    ∃ cs, TiledChain (ins.params p) ins.level s'.relation t cs ∧
      ∃ lentries s₁, (((ntids.drop (ins.start 0)).take (t2L0Width ins.mEff ins.payloadM)).mapM
        (gatherEntry oc p.dimensions) : Prog (Disk I V Q) _).exec s = some (lentries, s₁) ∧
      slotEntries cs = lentries.take (inlineCovered (ins.params p) ins.level) := by
  have hstart := start_le ins (Nat.zero_le ins.level)
  rw [t2LayerM_zero] at hstart
  unfold writeNeighborTuple at h
  rw [if_pos hinline] at h
  dsimp only at h
  rw [Prog.bind_eq, Prog.exec_bind] at h
  obtain ⟨⟨lentries, s₁⟩, hgather, h⟩ := Option.bind_eq_some_iff.mp h
  obtain ⟨-, hlength⟩ := gatherEntries_exec hgather
  rw [List.length_take, List.length_drop] at hlength
  replace hlength : lentries.length = t2L0Width ins.mEff ins.payloadM := by
    unfold t2L0Width at hlength ⊢
    omega
  rw [Prog.bind_eq, Prog.exec_bind] at h
  obtain ⟨⟨next, s₂⟩, hconts, h⟩ := Option.bind_eq_some_iff.mp h
  dsimp only at hconts h
  obtain ⟨cs, hchain, hspans, hentries⟩ := appendConts_exec _ (.nil rfl) hconts
  rw [List.append_nil] at hchain
  have happended := appendTuple_appended (noteNeighbor_notes i ins ntids) h
  rw [hlength] at hspans
  have htiled : TiledChain (ins.params p) ins.level s'.relation t
      (⟨0, next, lentries.take (min (t2L0Width ins.mEff ins.payloadM) (t2InlinePrimaryCap ins.level
        ins.mEff ins.payloadM (inlineEntrySize p.dimensions)))⟩ :: cs) := by
    refine ⟨⟨_, Relation.neighbor_some.mpr happended.item_self, hwidth⟩, ⟨?_, ?_⟩, ?_⟩
    · rw [happended.item_self]
      rfl
    · exact hchain.imp fun t c => happended.item_of_item
    · rw [List.map_cons, hspans, chunkSpan, List.length_take, hlength,
        Nat.min_eq_left (Nat.min_le_left _ _)]
      rfl
  refine ⟨_, htiled, lentries, s₁, hgather, ?_⟩
  have hcovered := length_slotEntries htiled.tiles
  revert hcovered
  show (List.take _ lentries ++ slotEntries cs).length = _ → List.take _ lentries ++ slotEntries cs = _
  rw [hentries, ← List.take_add, List.length_take, Nat.sub_zero]
  intro hcovered
  apply List.take_eq_take_iff.mpr
  omega

/-- **The chain of a new element** after its insert. -/
theorem insertElement_tiled [CDouble D] [Inhabited Q] {H : PairingHeap} {natts fuel : Nat} {i : I}
    {opts : RdOptions} {row : Row V} {value : V} {s s' : Disk I V Q}
    (hinline : s.relation.metaPage.inlineVectors = true)
    (h : (insertElement H oc natts fuel i opts row value).exec s = some ((), s')) :
    ∃ e elem, s'.relation.element e = some elem ∧ elem.vec = value ∧
      elem.heaptid = row.heaptid ∧
      elem.level = assignLevel (mEff opts row.defaultGamma) row.drawn ∧
      ∃ cs, TiledChain ⟨mEff opts row.defaultGamma, s.relation.metaPage.payloadWidth,
        s.relation.metaPage.dimensions, true⟩ elem.level s'.relation elem.neighbortid cs := by
  unfold insertElement at h
  split at h
  · cases h
  rw [Prog.bind_eq, Prog.exec_bind] at h
  obtain ⟨⟨p, s₁⟩, hmeta, h⟩ := Option.bind_eq_some_iff.mp h
  obtain ⟨rfl, rfl⟩ := Prod.mk.inj (Option.some.inj hmeta)
  dsimp only at h
  split at h
  · cases h
  rw [Prog.bind_eq, Prog.exec_bind] at h
  obtain ⟨⟨w, s₂⟩, hwire, h⟩ := Option.bind_eq_some_iff.mp h
  obtain ⟨-, hwidth⟩ := (wire_length s.relation.metaPage).exec trivial hwire
  obtain ⟨n, s₃, e, hneighbor, helement, hrest⟩ := publish_exec h
  obtain ⟨cs, htiled, -⟩ := writeNeighborTuple_tiled hinline hwidth hneighbor
  refine ⟨e, _, helement, rfl, rfl, rfl, ?_⟩
  have hparams := hrest _ (survives_tiled _ _ _) ⟨cs, htiled⟩
  unfold Inserting.params at hparams
  rw [hinline] at hparams
  exact hparams

end

/-! ### Sizes -/

section
variable {b : BuildParams} {level : Nat}

/-- The slot arrays of all levels leave room for a chunk's header. -/
theorem inlineHdrOffset_le (hlevel : level ≤ acornMaxLevel) (hm : b.mEff ≤ hnswMaxM)
    (hp : b.payloadM ≤ hnswMaxNeighbors) :
    inlineHdrOffset (t2TotalSlots level b.mEff b.payloadM) + 16 < hnswMaxSize := by
  have hslots : (level + 1) * b.mEff ≤ (acornMaxLevel + 1) * hnswMaxM :=
    Nat.mul_le_mul (Nat.succ_le_succ hlevel) hm
  have htotal : t2TotalSlots level b.mEff b.payloadM ≤ 900 := Nat.add_le_add hslots hp
  have hmax : hnswMaxSize = 8156 := rfl
  unfold inlineHdrOffset maxAlign
  omega

/-- **Every tuple fits a page.** -/
theorem neighborSizes_le (hinline : b.inlineVectors = true) (hlevel : level ≤ acornMaxLevel)
    (hm : b.mEff ≤ hnswMaxM) (hp : b.payloadM ≤ hnswMaxNeighbors) :
    ∀ size ∈ neighborSizes b level, size ≤ hnswMaxSize := by
  have hbase := inlineHdrOffset_le hlevel hm hp
  intro size hsize
  unfold neighborSizes at hsize
  rw [if_pos hinline] at hsize
  unfold chunks at hsize
  dsimp only at hsize
  obtain rfl | hsize := List.mem_cons.mp hsize
  · have hcap : t2InlinePrimaryCap level b.mEff b.payloadM (inlineEntrySize b.dims) *
        inlineEntrySize b.dims ≤
          hnswMaxSize - (inlineHdrOffset (t2TotalSlots level b.mEff b.payloadM) + 16) := by
      unfold t2InlinePrimaryCap
      dsimp only
      rw [if_neg (Nat.not_le_of_lt hbase)]
      exact Nat.div_mul_le_self _ _
    have hn := Nat.mul_le_mul_right (inlineEntrySize b.dims) (Nat.min_le_right
      (t2L0Width b.mEff b.payloadM) (t2InlinePrimaryCap level b.mEff b.payloadM
        (inlineEntrySize b.dims)))
    unfold inlineNtupSize
    omega
  · rw [List.map_map] at hsize
    obtain ⟨c, -, rfl⟩ := List.mem_map.mp hsize
    have hn := Nat.mul_le_mul_right (inlineEntrySize b.dims) (Nat.min_le_right
      (t2L0Width b.mEff b.payloadM - (min (t2L0Width b.mEff b.payloadM) (t2InlinePrimaryCap level
        b.mEff b.payloadM (inlineEntrySize b.dims)) + c * t2InlineContCap (inlineEntrySize b.dims)))
      (t2InlineContCap (inlineEntrySize b.dims)))
    have hcap : t2InlineContCap (inlineEntrySize b.dims) * inlineEntrySize b.dims ≤
        hnswMaxSize - 24 := Nat.div_mul_le_self _ _
    have hmax : hnswMaxSize = 8156 := rfl
    show inlineContSize _ _ ≤ hnswMaxSize
    unfold inlineContSize
    dsimp only
    omega

/-- The sizes of the tuples of a chain. -/
theorem TiledChain.sizes {r : Relation V Q} {t : Tid} {c : InlineChunk Q}
    {cs : List (InlineChunk Q)} (h : TiledChain b level r t (c :: cs))
    (hinline : b.inlineVectors = true) : neighborSizes b level =
      inlineNtupSize level b.mEff b.payloadM c.entries.length (inlineEntrySize b.dims) ::
        cs.map fun c => inlineContSize c.entries.length (inlineEntrySize b.dims) := by
  unfold neighborSizes
  rw [if_pos hinline, ← h.spans, List.map_cons]
  dsimp only
  rw [List.map_map]
  rfl

end

/-! ### Bytes -/

/-- The byte at which `acorn_t2_inline_write_entry` writes, in the tuple where its walk ends. -/
def writeOffset (dims count : Nat) (primary : Bool) (c : InlineChunk Q) (slot : Nat) : Nat :=
  let entriesOff := if primary then inlineHdrOffset count + 16 else 24
  let idx := slot - c.start
  entriesOff + idx * inlineEntrySize dims

/-- The byte at which `acorn_t2_stream_expand_inline` reads. -/
def readOffset (dims count : Nat) (first : Bool) (c : InlineChunk Q) (j : Nat) : Nat :=
  let entries := if first then
      -- AcornT2NeighborInlineHdr, then AcornT2InlineHdrEntries
      let hdr := inlineHdrOffset count
      hdr + 16
    else 24
  entries + (j - c.start) * inlineEntrySize dims

/-- A chunk's tuple, as bytes: what is before the entries, and these. -/
def chunkBytes {dims : Nat} (encode : InlineEntry Q → Vector UInt8 (inlineEntrySize dims))
    (front : List UInt8) (c : InlineChunk Q) : List UInt8 :=
  front ++ c.entries.flatMap fun e => (encode e).toList

/-- What is before the entries: the slot array and the header, or the header alone. -/
def frontSize (count : Nat) (primary : Bool) : Nat :=
  if primary then maxAlign (4 + count * 6) + 16 else 8 + 16

section
variable {dims count slot : Nat} {primary : Bool} {c : InlineChunk Q}
  (encode : InlineEntry Q → Vector UInt8 (inlineEntrySize dims)) {front : List UInt8}

theorem length_chunkBytes (c : InlineChunk Q) :
    (chunkBytes encode front c).length = front.length + c.entries.length * inlineEntrySize dims := by
  unfold chunkBytes
  rw [List.length_append, length_records fun e => Vector.length_toList]

theorem writeOffset_eq (dims count : Nat) (primary : Bool) (c : InlineChunk Q) (slot : Nat) :
    writeOffset dims count primary c slot =
      frontSize count primary + (slot - c.start) * inlineEntrySize dims := by
  cases primary <;> rfl

theorem readOffset_eq (dims count : Nat) (primary : Bool) (c : InlineChunk Q) (slot : Nat) :
    readOffset dims count primary c slot =
      frontSize count primary + (slot - c.start) * inlineEntrySize dims := by
  cases primary <;> rfl

/-- **The bytes of an entry**: the scan and the writer find them at the same offset, inside
the tuple; the entry written there is the slot's. -/
theorem bytes_entry (hcovers : covers (chunkSpan c) slot)
    (hfront : front.length = frontSize count primary) (entry : InlineEntry Q) :
    readOffset dims count primary c slot = writeOffset dims count primary c slot ∧
      (chunkBytes encode front c).length =
        frontSize count primary + c.entries.length * inlineEntrySize dims ∧
      writeOffset dims count primary c slot + inlineEntrySize dims ≤
        (chunkBytes encode front c).length ∧
      overwrite (chunkBytes encode front c) (writeOffset dims count primary c slot)
        (encode entry).toList = chunkBytes encode front (putEntry slot entry c) ∧
      ∀ e ∈ c.entries[slot - c.start]?, ((chunkBytes encode front c).drop
        (readOffset dims count primary c slot)).take (inlineEntrySize dims) = (encode e).toList := by
  have hcovered := covers_chunkSpan.mp hcovers
  have hidx : slot - c.start < c.entries.length := by omega
  rw [readOffset_eq, writeOffset_eq, ← hfront]
  refine ⟨rfl, length_chunkBytes encode c, ?_, ?_, fun e he => ?_⟩
  · have hle := Nat.mul_le_mul_right (inlineEntrySize dims) (Nat.succ_le_of_lt hidx)
    rw [Nat.succ_mul] at hle
    rw [length_chunkBytes]
    omega
  · unfold chunkBytes putEntry
    rw [if_pos hcovers, overwrite_append, overwrite_record (fun e => Vector.length_toList) hidx]
  · unfold chunkBytes
    rw [List.drop_length_add_append]
    exact read_record (fun e => Vector.length_toList) he

end

/-! ### The statement -/

/-- A graph as the inserts of a build leave it, whose elements fit pages. -/
structure BuildGraph.Built (oc : Opclass V Q D) (b : BuildParams) (g : BuildGraph V) : Prop where
  levels : ∀ node ∈ g.nodes, node.level ≤ acornMaxLevel
  slots : ∀ node ∈ g.nodes, node.nbr.length = t2TotalSlots node.level b.mEff b.payloadM
  targets : ∀ node ∈ g.nodes, ∀ slot ∈ node.nbr, slot < g.nodes.length
  entry : g.entryId < g.nodes.length
  elements : ∀ node ∈ g.nodes, elementTupleSize (oc.vsize node.vec) ≤ hnswMaxSize

theorem BuildGraph.Built.flushable {oc : Opclass V Q D} {b : BuildParams} {g : BuildGraph V}
    (h : g.Built oc b) (hinline : b.inlineVectors = true) (hm : b.mEff ≤ hnswMaxM)
    (hp : b.payloadM ≤ hnswMaxNeighbors) : g.Flushable oc b where
  slots := h.slots
  targets := h.targets
  entry := h.entry
  neighbors := fun node hnode => neighborSizes_le hinline (h.levels node hnode) hm hp
  elements := h.elements

/-- **One chunk for every layer-0 slot**, from the tuples that are written to the bytes that
are read. -/
structure ChunksTile (I : Type) [CDouble D] [Inhabited Q] (oc : Opclass V Q D) (b : BuildParams) :
    Prop where
  tiles : ∀ level, Tiles (t2L0Width b.mEff b.payloadM) 0 (chunks b level)
  once : ∀ level, ∀ slot < t2L0Width b.mEff b.payloadM,
    (chunks b level).countP (covers · slot) = 1
  sizes : b.mEff ≤ hnswMaxM → b.payloadM ≤ hnswMaxNeighbors → ∀ level ≤ acornMaxLevel,
    ∀ (r : Relation V Q) (t : Tid) (c : InlineChunk Q) (cs : List (InlineChunk Q)),
      TiledChain b level r t (c :: cs) →
        inlineNtupSize level b.mEff b.payloadM c.entries.length (inlineEntrySize b.dims) ≤
          hnswMaxSize ∧
        ∀ c' ∈ cs, inlineContSize c'.entries.length (inlineEntrySize b.dims) ≤ hnswMaxSize
  flushed : b.mEff ≤ hnswMaxM → b.payloadM ≤ hnswMaxNeighbors →
    ∀ (g : BuildGraph V) (s s' : Disk I V Q), g.Built oc b → s.relation.pages = [] →
      memFlush oc b g s = some s' → ∀ p ∈ g.nodes.zip (memPreassignTids oc b g.nodes), ∃ cs,
        TiledChain b p.1.level s'.relation p.2.nbrtid cs ∧ slotEntries cs =
          ((p.1.layer b 0).take (t2L0Width b.mEff b.payloadM)).map
            (slotEntry oc b g.nodes (memPreassignTids oc b g.nodes))
  gathered : ∀ (ins : Inserting V) (i : I) (p : MetaPage) (ntids : List Tid) (t : Tid)
    (s s' : Disk I V Q), ins.params p = b → ntids.length = ins.slots →
      (writeNeighborTuple oc ins i p ntids).exec s = some (t, s') → ∃ cs,
        TiledChain b ins.level s'.relation t cs ∧ ∃ s₁,
          (((ntids.drop (ins.start 0)).take (t2L0Width b.mEff b.payloadM)).mapM
            (gatherEntry oc b.dims) : Prog (Disk I V Q) _).exec s = some (slotEntries cs, s₁)
  inserted : ∀ (H : PairingHeap) (natts fuel : Nat) (i : I) (opts : RdOptions) (row : Row V)
    (value : V) (s s' : Disk I V Q),
      (⟨mEff opts row.defaultGamma, s.relation.metaPage.payloadWidth,
        s.relation.metaPage.dimensions, s.relation.metaPage.inlineVectors⟩ : BuildParams) = b →
      (insertElement H oc natts fuel i opts row value).exec s = some ((), s') →
        ∃ e elem, s'.relation.element e = some elem ∧ elem.vec = value ∧
          elem.heaptid = row.heaptid ∧
          elem.level = assignLevel (mEff opts row.defaultGamma) row.drawn ∧
          ∃ cs, TiledChain b elem.level s'.relation elem.neighbortid cs
  kept : ∀ (H : PairingHeap) (natts fuel : Nat) (i : I) (opts : RdOptions) (row : Row V)
    (level : Nat) (t : Tid), (insert H oc natts fuel i opts row : Prog (Disk I V Q) Unit).Yields
      (fun s => ∃ cs, TiledChain b level s.relation t cs) fun _ => True
  located : ∀ (level : Nat) (r : Relation V Q) (t : Tid) (cs : List (InlineChunk Q)),
    TiledChain b level r t cs → ∀ slot < t2L0Width b.mEff b.payloadM, ∃ first u c,
      locate slot true t cs = some (first, u, c) ∧ covers (chunkSpan c) slot ∧
        (r.item u).bind IndexTuple.chunk? = some c ∧
        (slotEntries cs)[slot]? = c.entries[slot - c.start]?
  written : ∀ (level : Nat) (s : Disk I V Q) (t : Tid) (cs : List (InlineChunk Q)),
    TiledChain b level s.relation t cs → ∀ slot < t2L0Width b.mEff b.payloadM,
      ∀ (entry : InlineEntry Q) (first : Bool) (u : Tid) (c : InlineChunk Q),
        locate slot true t cs = some (first, u, c) → ∃ s' cs',
          (∀ fuel ≥ cs.length, (t2InlineWriteEntry fuel t slot entry).exec s = some ((), s')) ∧
          s' = s.withRelation (s.relation.update u (setEntry (slot - c.start) entry)) ∧
          TiledChain b level s'.relation t cs' ∧
          slotEntries cs' = (slotEntries cs).set slot entry ∧
          ∀ target, Scan.InlineChunk.entryFor (wholeChunk cs') slot target =
            if entry.valid && decide (entry.indextid = target) then some entry else none
  read : 0 < b.mEff → ∀ (H : PairingHeap) (level : Nat) (S : Scan.Stream V Q D) (t : Tid)
    (cs : List (InlineChunk Q)), TiledChain b level S.index t cs → S.m = b.mEff →
      S.payloadM = b.payloadM → ∀ (s : Scan.State H D) (ce : Scan.Elem D) (x : Nat),
        Scan.candidateNbr S ce = some (x, t) →
          ∃ n ∈ S.index.neighbor t, ∃ tids ∈ slotRange n.tids (hnswNeighborStart b.mEff level 0)
            (t2L0Width b.mEff b.payloadM), ∀ fuel ≥ cs.length,
              Scan.t2StreamExpandInline S fuel s ce =
                let w := Scan.walkChunk tids ⟨s.visited, [], []⟩ (wholeChunk cs)
                w.cands.foldlM (Scan.pushCand S) { s with visited := w.visited }
  bytes : ∀ (encode : InlineEntry Q → Vector UInt8 (inlineEntrySize b.dims)) (count slot : Nat)
    (primary : Bool) (c : InlineChunk Q) (front : List UInt8), covers (chunkSpan c) slot →
      front.length = frontSize count primary → ∀ entry,
        readOffset b.dims count primary c slot = writeOffset b.dims count primary c slot ∧
        (chunkBytes encode front c).length =
          frontSize count primary + c.entries.length * inlineEntrySize b.dims ∧
        writeOffset b.dims count primary c slot + inlineEntrySize b.dims ≤
          (chunkBytes encode front c).length ∧
        overwrite (chunkBytes encode front c) (writeOffset b.dims count primary c slot)
          (encode entry).toList = chunkBytes encode front (putEntry slot entry c) ∧
        ∀ e ∈ c.entries[slot - c.start]?, ((chunkBytes encode front c).drop
          (readOffset b.dims count primary c slot)).take (inlineEntrySize b.dims) =
            (encode e).toList

/-- **The inline chunks tile the layer-0 slots** of an index with co-located vectors, one
entry of which fits a page. -/
theorem inline_chunks_tile (I : Type) [CDouble D] [Inhabited Q] (oc : Opclass V Q D)
    {b : BuildParams} (hinline : b.inlineVectors = true)
    (hentry : inlineContSize 1 (inlineEntrySize b.dims) ≤ hnswMaxSize) : ChunksTile I oc b := by
  have htiles : ∀ level, Tiles (t2L0Width b.mEff b.payloadM) 0 (chunks b level) := by
    intro level
    rw [← inlineCovered_eq hentry level]
    exact tiles_chunks b level
  exact
    { tiles := htiles
      once := fun level slot hslot => (htiles level).countP (Nat.zero_le slot) hslot
      sizes := by
        intro hm hp level hlevel r t c cs h
        have hle := neighborSizes_le hinline hlevel hm hp
        rw [h.sizes hinline] at hle
        refine ⟨hle _ List.mem_cons_self, fun c' hc' => hle _ ?_⟩
        exact List.mem_cons_of_mem _ (List.mem_map.mpr ⟨c', hc', rfl⟩)
      flushed := by
        intro hm hp g s s' hg hempty h p hmem
        rw [← inlineCovered_eq hentry p.1.level]
        exact flushed_tiled (hg.flushable hinline hm hp) hinline hempty h p hmem
      gathered := by
        rintro ins i p ntids t s s' rfl hwidth h
        obtain ⟨cs, htiled, lentries, s₁, hgather, hentries⟩ :=
          writeNeighborTuple_tiled hinline hwidth h
        refine ⟨cs, htiled, s₁, ?_⟩
        have hall : slotEntries cs = lentries := by
          have hlength := (gatherEntries_exec hgather).2
          rw [hentries, List.take_of_length_le]
          rw [hlength, inlineCovered_eq hentry]
          exact List.length_take_le _ _
        rw [hall]
        exact hgather
      inserted := by
        rintro H natts fuel i opts row value s s' rfl h
        have htiled := insertElement_tiled hinline h
        rw [← show s.relation.metaPage.inlineVectors = true from hinline] at htiled
        exact htiled
      kept := fun H natts fuel i opts row level t =>
        insert_survives (survives_tiled b level t) i opts row
      located := by
        intro level r t cs h slot hslot
        have hcovered := h.tiles
        rw [inlineCovered_eq hentry] at hcovered
        obtain ⟨first, u, c, hlocate⟩ := locate_some true t hcovered (Nat.zero_le slot) hslot
        obtain ⟨hmem, hcovers⟩ := mem_of_locate hlocate
        exact ⟨first, u, c, hlocate, hcovers, item_of_locate h.chain hlocate,
          slotEntries_get hcovered hmem hcovers⟩
      written := by
        intro level s t cs h slot hslot entry first u c hlocate
        obtain ⟨first', u', c', hlocate', hexec, htiled, hentries⟩ :=
          h.write (by rw [inlineCovered_eq hentry]; exact hslot) entry
        rw [hlocate] at hlocate'
        cases hlocate'
        refine ⟨_, _, hexec, rfl, htiled, hentries, fun target => ?_⟩
        have hlength := length_slotEntries h.tiles
        rw [inlineCovered_eq hentry] at hlength
        unfold Scan.InlineChunk.entryFor wholeChunk
        dsimp only
        rw [hentries, Nat.sub_zero, List.getElem?_set_self (by omega)]
      read := fun hpos H level S t cs h hm hp s ce x hnbr =>
        t2StreamExpandInline_tiled h hentry hm hp hpos s hnbr
      bytes := fun encode count slot primary c front hcovers hfront entry =>
        bytes_entry encode hcovers hfront entry }

end

/-- Entries as large as a page allows: the primary chunk has room for none. -/
def widestParams : BuildParams := ⟨2, 2, 8088, true⟩

theorem inline_chunks_tile_widest : ChunksTile Unit points widestParams ∧
    chunks widestParams 6 = [(0, 0), (0, 1), (1, 1), (2, 1), (3, 1)] ∧
    neighborSizes widestParams 6 = [120, 8152, 8152, 8152, 8152] :=
  ⟨inline_chunks_tile Unit points rfl (by decide), by decide, by decide⟩

end PgAcorn.Build
