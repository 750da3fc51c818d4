import PgAcorn.Build.Flush
import PgAcorn.Build.ReverseEdge
import PgAcorn.Build.Runs
import PgAcorn.Library.Ledger
import PgAcorn.Library.Machine
import PgAcorn.Library.RwLock
import Mathlib.Data.Fintype.BigOperators

/-! From memory to disk in a build.

Each participant of a parallel build takes its heap tuples one by one through
`acorn_build_insert_tuple`: into the graph in memory while that has room, under the
flush lock shared; else, under the flush lock alone, through a flush if nobody has
done it yet and into the index on disk. The leader flushes last what is still in
memory. A serial build does the same without locks, on a budget.

Tuples that wait, nodes that are not flushed and rows on disk are always the tuples
that there were (`Kept`), so a build that ends has indexed each of them once. Only the
vectors can be others: in the shared arena a node's vector lies in front of its slots, and
a reverse edge that is written in front of the slots changes it. -/
namespace PgAcorn.Build
open Library
open PgAcorn.Filter (Datum)

section
variable {V : Type}

/-! ### Heap tuples -/

/-- What `acorn_build_callback` is called with: the indexed values of a heap tuple,
`none` for NULL, and where it is. -/
structure HeapTuple (V : Type) where
  value : Option V
  filter : Option Datum
  tid : Tid

/-- A heap tuple for `acorn_build_insert_tuple`. -/
structure Scanned (V : Type) where
  value : V
  filterVal : Datum
  tid : Tid
  deriving DecidableEq

/-- `acorn_build_callback` up to the insert: a NULL vector is skipped. -/
def buildCallback (hasFilter : Bool) (t : HeapTuple V) : Option (Scanned V) :=
  t.value.map fun value => ⟨value, if hasFilter then t.filter.getD 0 else 0, t.tid⟩

/-- The row the index is to have. -/
def Scanned.row (t : Scanned V) : IndexedRow V := rowOf t.tid t.filterVal t.value

/-- The tuple for `acorn_insert_element`, with the level drawn for it. -/
def Scanned.toRow (t : Scanned V) (drawn defaultGamma : Nat) : Row V :=
  ⟨some t.value, t.filterVal, t.tid, drawn, defaultGamma⟩

def scannedRows (ts : List (Scanned V)) : Multiset (IndexedRow V) :=
  (ts.map Scanned.row : List (IndexedRow V))

/-! ### Pushing a node -/

/-- The memory of a node beside its struct: its vector and its slots. -/
def nodeBytes (b : BuildParams) (level vsize : Nat) : Nat :=
  maxAlign vsize + maxAlign (t2TotalSlots level b.mEff b.payloadM * 4)

/-- The node of a pushed tuple. -/
def Scanned.node (b : BuildParams) (t : Scanned V) (drawn : Nat) : BuildNode V :=
  .new b (assignLevel b.mEff drawn) (t.toRow drawn 0) t.value

def BuildGraph.push (g : BuildGraph V) (node : BuildNode V) : BuildGraph V :=
  { g with nodes := g.nodes ++ [node] }

/-- A slot of a node is written. -/
def BuildGraph.rewire (g : BuildGraph V) (id k : Nat) (slot : Int) : BuildGraph V :=
  { g with nodes := g.nodes.modify id fun node => { node with nbr := node.nbr.set k slot } }

/-- The last four bytes of a node's vector, in front of its slots, are overwritten with a
node number. -/
def BuildGraph.overlay (overlay : V → Nat → V) (g : BuildGraph V) (id new : Nat) : BuildGraph V :=
  { g with nodes := g.nodes.modify id fun node => { node with vec := overlay node.vec new } }

theorem rows_push (b : BuildParams) (g : BuildGraph V) (t : Scanned V) (drawn : Nat) :
    (g.push (t.node b drawn)).rows = g.rows + {t.row} := by
  simp [BuildGraph.push, BuildGraph.rows, Scanned.node, BuildNode.new, BuildNode.row, Scanned.row,
    Scanned.toRow, ← Multiset.coe_add]

/-- A node is changed, and nothing of it that is looked at. -/
theorem map_modify {κ : Type} {f : BuildNode V → κ} {change : BuildNode V → BuildNode V}
    {nodes : List (BuildNode V)} {id : Nat}
    (h : ∀ node, nodes[id]? = some node → f (change node) = f node) :
    (nodes.modify id change).map f = nodes.map f := by
  induction nodes generalizing id with
  | nil => simp
  | cons node nodes ih =>
    cases id with
    | zero => simp [h node rfl]
    | succ id => simp [ih h]

theorem rows_rewire (g : BuildGraph V) (id k : Nat) (slot : Int) :
    (g.rewire id k slot).rows = g.rows :=
  congrArg Multiset.ofList (map_modify fun _ _ => rfl)

/-- A vector that is overwritten with what it has there stays as it is. -/
theorem rows_overlay {overlay : V → Nat → V} {g : BuildGraph V} {id new : Nat}
    (h : ∀ node, g.nodes[id]? = some node → overlay node.vec new = node.vec) :
    (g.overlay overlay id new).rows = g.rows :=
  congrArg Multiset.ofList (map_modify fun node hnode =>
    congrArg (rowOf node.heaptid node.filterVal) (h node hnode))

/-- What of a row is not its vector. -/
def IndexedRow.key (r : IndexedRow V) : Vector Tid hnswHeaptids × Datum := (r.heaptids, r.filterVal)

/-- An overwritten vector is still the vector of the same row. -/
theorem keys_overlay (overlay : V → Nat → V) (g : BuildGraph V) (id new : Nat) :
    (g.overlay overlay id new).rows.map IndexedRow.key = g.rows.map IndexedRow.key := by
  unfold BuildGraph.rows
  rw [Multiset.map_coe, Multiset.map_coe, List.map_map, List.map_map]
  exact congrArg Multiset.ofList (map_modify fun _ _ => rfl)

end

/-! ### In front of the slots -/

section
variable {V Q D : Type} [CDouble D] (oc : Opclass V Q D) (overlay : V → Nat → V)

/-- The last loop of `acorn_mem_add_reverse_edge`, of the first `count` slots of a node, all
taken by others than the new node. If it finds no occupant, the write is in front of them. -/
def BuildGraph.retry (g : BuildGraph V) (id new count : Nat) : Option (BuildGraph V) := do
  let nbr ← g.nodes[id]?
  let node ← g.nodes[new]?
  let range := nbr.nbr.take count
  guard (range.length = count ∧ ∀ eid ∈ range, 0 ≤ eid ∧ eid < g.nodes.length ∧ eid ≠ new)
  let occ := range.filterMap fun eid => g.nodes[eid.toNat]?
  match furthestSlot (fun y => oc.dist nbr.vec y.vec) occ node with
  | none => some g
  | some j => some (if 0 ≤ j then g.rewire id j.toNat new else g.overlay overlay id new)

/-- Of the first `count` slots of a node one has an occupant above `-DBL_MAX`, if the new node
is below it; or the write in front of them changes nothing. -/
def BuildGraph.Clear (g : BuildGraph V) (id new count : Nat) : Prop :=
  ∀ nbr ∈ g.nodes[id]?, ∀ node ∈ g.nodes[new]?,
    CDouble.lt (oc.dist nbr.vec node.vec) CDouble.negDblMax = true →
      (∃ eid ∈ nbr.nbr.take count, ∃ y ∈ g.nodes[eid.toNat]?,
        CDouble.lt CDouble.negDblMax (oc.dist nbr.vec y.vec) = true) ∨
      overlay nbr.vec new = nbr.vec

instance [DecidableEq V] (g : BuildGraph V) (id new count : Nat) :
    Decidable (g.Clear oc overlay id new count) :=
  inferInstanceAs (Decidable (∀ nbr ∈ g.nodes[id]?, ∀ node ∈ g.nodes[new]?, _))

variable {oc overlay} {g g' : BuildGraph V} {id new count : Nat}

/-- What the last loop can do: nothing, a slot is written, or the vector in front of the slots
is; then no occupant is above `-DBL_MAX`, and the new node is below it. -/
theorem retry_cases (h : g.retry oc overlay id new count = some g') :
    g' = g ∨ (∃ k, g' = g.rewire id k new) ∨
      (g' = g.overlay overlay id new ∧ ∃ nbr node, g.nodes[id]? = some nbr ∧
        g.nodes[new]? = some node ∧
        CDouble.lt (oc.dist nbr.vec node.vec) CDouble.negDblMax = true ∧
        ∀ eid ∈ nbr.nbr.take count, ∀ y ∈ g.nodes[eid.toNat]?,
          CDouble.lt CDouble.negDblMax (oc.dist nbr.vec y.vec) = false) := by
  obtain ⟨nbr, hnbr, h⟩ := Option.bind_eq_some_iff.mp h
  obtain ⟨node, hnode, h⟩ := Option.bind_eq_some_iff.mp h
  obtain ⟨-, -, h⟩ := Option.bind_eq_some_iff.mp h
  dsimp only at h
  set occ := (nbr.nbr.take count).filterMap fun eid => g.nodes[eid.toNat]?
  rcases furthestSlot_eq (fun y : BuildNode V => oc.dist nbr.vec y.vec) occ node with
    heq | ⟨heq, hlt, hall⟩
  · rw [heq] at h
    cases hvictim : furthestVictim (fun y : BuildNode V => oc.dist nbr.vec y.vec) occ node with
    | none =>
      rw [hvictim] at h
      exact .inl (Option.some.inj h).symm
    | some j =>
      rw [hvictim] at h
      have hslot : (0 : Int) ≤ Int.ofNat j := Int.natCast_nonneg j
      simp only [Option.map_some, if_pos hslot] at h
      exact .inr (.inl ⟨_, (Option.some.inj h).symm⟩)
  · rw [heq] at h
    refine .inr (.inr ⟨(Option.some.inj h).symm, nbr, node, hnbr, hnode, hlt,
      fun eid he y hy => ?_⟩)
    exact hall y (List.mem_filterMap.mpr ⟨eid, he, hy⟩)

/-- **The last loop keeps the rows where it is clear**, and the keys of the rows in any case. -/
theorem retry_rows (h : g.retry oc overlay id new count = some g')
    (hclear : g.Clear oc overlay id new count) : g'.rows = g.rows := by
  obtain rfl | ⟨k, rfl⟩ | ⟨rfl, nbr, node, hnbr, hnode, hlt, hall⟩ := retry_cases h
  · rfl
  · exact rows_rewire ..
  · apply rows_overlay
    intro nbr' hnbr'
    obtain rfl := Option.some.inj (hnbr.symm.trans hnbr')
    obtain ⟨eid, he, y, hy, habove⟩ | hsame := hclear nbr hnbr node hnode hlt
    · rw [hall eid he y hy] at habove
      cases habove
    · exact hsame

theorem retry_keys (h : g.retry oc overlay id new count = some g') :
    g'.rows.map IndexedRow.key = g.rows.map IndexedRow.key := by
  obtain rfl | ⟨k, rfl⟩ | ⟨rfl, -⟩ := retry_cases h
  · rfl
  · rw [rows_rewire]
  · exact keys_overlay ..

end

/-! ### A parallel build -/

/-- Where a participant is in `acorn_build_insert_tuple`, or the leader, without a
tuple, in the last block of `acorn_build_internal`. -/
inductive SpillPc (V : Type) where
  | waiting
  | next
  | lockShared (t : Scanned V)
  | checkShared (t : Scanned V)
  | push (t : Scanned V)
  | link (id : Nat)
  | unlockShared (t : Option (Scanned V))
  | lockAlone (t : Option (Scanned V))
  | checkAlone (t : Option (Scanned V))
  | flush (t : Option (Scanned V))
  | setFlushed (t : Option (Scanned V))
  | insert (t : Scanned V)
  | unlockAlone
  | finished
  deriving DecidableEq

structure Participant (V : Type) where
  pc : SpillPc V
  todo : List (HeapTuple V)

namespace SpillPc
variable {V : Type}

/-- After the check or the flush, with the flush lock held. -/
def onDisk : Option (Scanned V) → SpillPc V
  | none => .unlockAlone
  | some t => .insert t

/-- After the shared section: the tuple is retried on disk if the arena had no room. -/
def retry : Option (Scanned V) → SpillPc V
  | none => .next
  | some t => .lockAlone (some t)

def isNext : SpillPc V → Bool
  | .next => true
  | _ => false

/-- The node `acorn_mem_insert_node` is running for. -/
def linked : SpillPc V → Option Nat
  | .link id => some id
  | _ => none

/-- `acorn_mem_insert_node` is running. -/
def linking (pc : SpillPc V) : Bool := pc.linked.isSome

/-- `acorn_mem_flush` is running. -/
def flushing : SpillPc V → Bool
  | .flush _ => true
  | _ => false

end SpillPc

/-- An index after `acorn_create_meta_page`. -/
def Disk.created {I V Q : Type} (meta_ : MetaPage) : Disk I V Q :=
  ⟨⟨meta_, []⟩, ⟨[], [], [], [], fun _ _ => []⟩⟩

/-- What a parallel build fixes at its beginning. -/
structure SpillParams where
  graph : BuildParams
  hasFilter : Bool
  opts : RdOptions
  defaultGamma : Nat
  natts : Nat
  maxNodes : Nat
  arenaSize : Nat

/-- `AcornShared` and the index; `flushes` counts the runs of `acorn_mem_flush`. An
insert on disk goes by the heap tuple it is for. -/
structure SpillShared (W V Q : Type) where
  flushLock : RwLock (Option W)
  flushed : Bool
  graph : BuildGraph V
  arenaUsed : Nat
  disk : Disk Tid V Q
  flushes : Nat

/-- The parties are the participants and, as `none`, the leader after the scan. -/
structure Spill (W V Q : Type) where
  shared : SpillShared W V Q
  parties : Option W → Participant V

/-- What a build does next: a party moves on, with a drawn level if it needs one; an
insert in memory writes a slot of some node, offers its node to the first slots of
another one without diversification, or writes the entry point; or the leader takes
over, the participants being done. -/
inductive SpillAction (W : Type) where
  | move (p : Option W) (drawn : Nat)
  | rewire (w : W) (id k : Nat) (slot : Int)
  | retry (w : W) (id count : Nat)
  | enter (w : W) (id : Int)
  | adopt

section
variable {W V Q D : Type} [DecidableEq W] [CDouble D] [Inhabited Q] (H : PairingHeap)
  (oc : Opclass V Q D) (overlay : V → Nat → V) (fuel : Nat) (b : SpillParams)

/-- The next tuple of a scan. -/
def takeTuple (t : HeapTuple V) (rest : List (HeapTuple V)) : Participant V :=
  ⟨((buildCallback b.hasFilter t).map SpillPc.lockShared).getD .next, rest⟩

/-- `acorn_mem_push_node` with a shared arena, under the allocator's lock; the fields of
the new node are for this participant alone until it links the node. -/
def pushShared (t : Scanned V) (drawn : Nat) (m : SpillShared W V Q) :
    SpillPc V × SpillShared W V Q :=
  let level := assignLevel b.graph.mEff drawn
  let bytes := nodeBytes b.graph level (oc.vsize t.value)
  if m.graph.nodes.length ≥ b.maxNodes ∨ m.arenaUsed + bytes > b.arenaSize then
    (.unlockShared (some t), m)
  else
    (.link m.graph.nodes.length,
      { m with graph := m.graph.push (t.node b.graph drawn), arenaUsed := m.arenaUsed + bytes })

/-- A step of a party on its own. -/
def moveParty (p : Option W) (drawn : Nat) (x : Participant V) (m : SpillShared W V Q) :
    Option (Participant V × SpillShared W V Q) :=
  match x.pc with
  | .waiting | .finished => none
  | .next => match x.todo with
    | [] => none
    | t :: rest => some (takeTuple b t rest, m)
  | .lockShared t => (m.flushLock.share p).map fun l =>
      (⟨.checkShared t, x.todo⟩, { m with flushLock := l })
  | .checkShared t => some (⟨if m.flushed then .unlockShared (some t) else .push t, x.todo⟩, m)
  | .push t =>
    let (pc, m) := pushShared oc b t drawn m
    some (⟨pc, x.todo⟩, m)
  | .link _ => some (⟨.unlockShared none, x.todo⟩, m)
  | .unlockShared t => some (⟨.retry t, x.todo⟩, { m with flushLock := m.flushLock.release p })
  | .lockAlone t => (m.flushLock.claim p).map fun l =>
      (⟨.checkAlone t, x.todo⟩, { m with flushLock := l })
  | .checkAlone t => some (⟨if m.flushed then .onDisk t else .flush t, x.todo⟩, m)
  | .flush t => (memFlush oc b.graph m.graph m.disk).map fun disk =>
      (⟨.setFlushed t, x.todo⟩, { m with disk := disk, flushes := m.flushes + 1 })
  | .setFlushed t => some (⟨.onDisk t, x.todo⟩, { m with flushed := true })
  | .insert t =>
    ((insertElement H oc b.natts fuel t.tid b.opts (t.toRow drawn b.defaultGamma) t.value).exec
      m.disk).map fun q => (⟨.unlockAlone, x.todo⟩, { m with disk := q.2 })
  | .unlockAlone => some (⟨if p.isSome then .next else .finished, x.todo⟩,
      { m with flushLock := m.flushLock.release p })

/-- A step of the build; `none` is an error, or a step that is not enabled. -/
def spillStep [Fintype W] (s : Spill W V Q) : SpillAction W → Option (Spill W V Q)
  | .move p drawn => (moveParty H oc fuel b p drawn (s.parties p) s.shared).map fun q =>
      ⟨q.2, Function.update s.parties p q.1⟩
  | .rewire w id k slot =>
    if (s.parties (some w)).pc.linking then
      some { s with shared := { s.shared with graph := s.shared.graph.rewire id k slot } }
    else none
  | .retry w id count =>
    if optDiversify b.opts then none
    else (s.parties (some w)).pc.linked.bind fun new =>
      (s.shared.graph.retry oc overlay id new count).map fun g =>
        { s with shared := { s.shared with graph := g } }
  | .enter w id =>
    if (s.parties (some w)).pc.linking then
      some { s with shared := { s.shared with graph := { s.shared.graph with entryId := id } } }
    else none
  | .adopt =>
    let leader := s.parties none
    match leader.pc with
    | .waiting =>
      if ∀ w, (s.parties (some w)).pc.isNext && (s.parties (some w)).todo.isEmpty then
        some { s with parties := Function.update s.parties none ⟨.lockAlone none, leader.todo⟩ }
      else none
    | _ => none

/-- The condition on a step: the last loop of a reverse edge does not change a vector. -/
def SpillClear (s : Spill W V Q) : SpillAction W → Prop
  | .retry w id count => ∀ new ∈ (s.parties (some w)).pc.linked,
      s.shared.graph.Clear oc overlay id new count
  | .move .. | .rewire .. | .enter .. | .adopt => True

instance [DecidableEq V] (s : Spill W V Q) (a : SpillAction W) :
    Decidable (SpillClear oc overlay s a) := by
  cases a with
  | retry w id count =>
    exact inferInstanceAs (Decidable (∀ new ∈ (s.parties (some w)).pc.linked, _))
  | move | rewire | enter | adopt => exact .isTrue trivial

/-- A build at its beginning: each participant has its heap tuples before it, the index
is its meta page. -/
def Spill.init (meta_ : MetaPage) (tuples : W → List (HeapTuple V)) : Spill W V Q where
  shared := ⟨.free, false, .empty, 0, .created meta_, 0⟩
  parties p := p.elim ⟨.waiting, []⟩ fun w => ⟨.next, tuples w⟩

end

/-! ### The flush lock -/

section
variable {V : Type}

/-- How a party has the flush lock. -/
def SpillPc.hold : SpillPc V → Hold
  | .checkShared _ | .push _ | .link _ | .unlockShared _ => .shared
  | .checkAlone _ | .flush _ | .setFlushed _ | .insert _ | .unlockAlone => .alone
  | .waiting | .next | .lockShared _ | .lockAlone _ | .finished => .free

/-- A party has seen that the graph is not flushed. -/
def SpillPc.unflushed : SpillPc V → Bool
  | .push _ | .link _ | .flush _ | .setFlushed _ => true
  | _ => false

/-- A party has seen that the graph is flushed. -/
def SpillPc.flushed : SpillPc V → Bool
  | .insert _ | .unlockAlone | .finished => true
  | _ => false

/-- The flush has run and is not recorded yet. -/
def SpillPc.closing : SpillPc V → Bool
  | .setFlushed _ => true
  | _ => false

def SpillPc.isWaiting : SpillPc V → Bool
  | .waiting => true
  | _ => false

/-- Where the leader can be after the scan. -/
def SpillPc.leading : SpillPc V → Bool
  | .waiting | .lockAlone none | .checkAlone none | .flush none | .setFlushed none | .unlockAlone
  | .finished => true
  | _ => false

def Participant.leading (x : Participant V) : Bool := x.pc.leading && x.todo.isEmpty

@[simp] theorem hold_onDisk (t : Option (Scanned V)) : (SpillPc.onDisk t).hold = .alone := by
  cases t <;> rfl

@[simp] theorem hold_retry (t : Option (Scanned V)) : (SpillPc.retry t).hold = .free := by
  cases t <;> rfl

@[simp] theorem unflushed_onDisk (t : Option (Scanned V)) :
    (SpillPc.onDisk t).unflushed = false := by
  cases t <;> rfl

@[simp] theorem unflushed_retry (t : Option (Scanned V)) : (SpillPc.retry t).unflushed = false := by
  cases t <;> rfl

@[simp] theorem closing_onDisk (t : Option (Scanned V)) : (SpillPc.onDisk t).closing = false := by
  cases t <;> rfl

@[simp] theorem closing_retry (t : Option (Scanned V)) : (SpillPc.retry t).closing = false := by
  cases t <;> rfl

@[simp] theorem flushed_retry (t : Option (Scanned V)) : (SpillPc.retry t).flushed = false := by
  cases t <;> rfl

end

/-! ### What a step can do -/

section
variable {W V Q D : Type} [DecidableEq W] [Inhabited Q]

/-- The steps of a party, with what is known where they are taken. -/
inductive Moves (oc : Opclass V Q D) (b : SpillParams) (p : Option W) :
    Participant V → SpillShared W V Q → Participant V → SpillShared W V Q → Prop
  | take {t rest m} : Moves oc b p ⟨.next, t :: rest⟩ m (takeTuple b t rest) m
  | share {t todo m l} (hl : m.flushLock.share p = some l) :
    Moves oc b p ⟨.lockShared t, todo⟩ m ⟨.checkShared t, todo⟩ { m with flushLock := l }
  | late {t todo m} (hflushed : m.flushed = true) :
    Moves oc b p ⟨.checkShared t, todo⟩ m ⟨.unlockShared (some t), todo⟩ m
  | early {t todo m} (hflushed : m.flushed = false) :
    Moves oc b p ⟨.checkShared t, todo⟩ m ⟨.push t, todo⟩ m
  | full {t todo m} : Moves oc b p ⟨.push t, todo⟩ m ⟨.unlockShared (some t), todo⟩ m
  | push {t todo m} (drawn id used : Nat) :
    Moves oc b p ⟨.push t, todo⟩ m ⟨.link id, todo⟩
      { m with graph := m.graph.push (t.node b.graph drawn), arenaUsed := used }
  | linked {id todo m} : Moves oc b p ⟨.link id, todo⟩ m ⟨.unlockShared none, todo⟩ m
  | unshare {t todo m} : Moves oc b p ⟨.unlockShared t, todo⟩ m ⟨.retry t, todo⟩
      { m with flushLock := m.flushLock.release p }
  | claim {t todo m l} (hl : m.flushLock.claim p = some l) :
    Moves oc b p ⟨.lockAlone t, todo⟩ m ⟨.checkAlone t, todo⟩ { m with flushLock := l }
  | done {t todo m} (hflushed : m.flushed = true) :
    Moves oc b p ⟨.checkAlone t, todo⟩ m ⟨.onDisk t, todo⟩ m
  | first {t todo m} (hflushed : m.flushed = false) :
    Moves oc b p ⟨.checkAlone t, todo⟩ m ⟨.flush t, todo⟩ m
  | flush {t todo m disk} (hdisk : memFlush oc b.graph m.graph m.disk = some disk) :
    Moves oc b p ⟨.flush t, todo⟩ m ⟨.setFlushed t, todo⟩
      { m with disk := disk, flushes := m.flushes + 1 }
  | setFlushed {t todo m} :
    Moves oc b p ⟨.setFlushed t, todo⟩ m ⟨.onDisk t, todo⟩ { m with flushed := true }
  | insert {t todo m disk} (hdisk : diskRows disk = diskRows m.disk + {t.row}) :
    Moves oc b p ⟨.insert t, todo⟩ m ⟨.unlockAlone, todo⟩ { m with disk := disk }
  | unclaim {todo m} :
    Moves oc b p ⟨.unlockAlone, todo⟩ m ⟨if p.isSome then .next else .finished, todo⟩
      { m with flushLock := m.flushLock.release p }

variable [CDouble D] {H : PairingHeap} {oc : Opclass V Q D} {overlay : V → Nat → V} {fuel : Nat}
  {b : SpillParams} {p : Option W} {drawn : Nat} {x x' : Participant V}
  {m m' : SpillShared W V Q} {s s' : Spill W V Q}

theorem moveParty_moves (h : moveParty H oc fuel b p drawn x m = some (x', m')) :
    Moves oc b p x m x' m' := by
  obtain ⟨pc, todo⟩ := x
  cases pc with
  | waiting | finished => cases h
  | next =>
    cases todo with
    | nil => cases h
    | cons t rest =>
      cases h
      exact .take
  | lockShared t =>
    obtain ⟨l, hl, heq⟩ := Option.map_eq_some_iff.mp h
    cases heq
    exact .share hl
  | checkShared t =>
    simp only [moveParty] at h
    split at h <;> cases h
    · exact .late ‹_›
    · exact .early (Bool.eq_false_iff.mpr ‹_›)
  | push t =>
    simp only [moveParty, pushShared] at h
    split at h <;> cases h
    · exact .full
    · exact .push ..
  | link id =>
    cases h
    exact .linked
  | unlockShared t =>
    cases h
    exact .unshare
  | lockAlone t =>
    obtain ⟨l, hl, heq⟩ := Option.map_eq_some_iff.mp h
    cases heq
    exact .claim hl
  | checkAlone t =>
    simp only [moveParty] at h
    split at h <;> cases h
    · exact .done ‹_›
    · exact .first (Bool.eq_false_iff.mpr ‹_›)
  | flush t =>
    obtain ⟨disk, hdisk, heq⟩ := Option.map_eq_some_iff.mp h
    cases heq
    exact .flush hdisk
  | setFlushed t =>
    cases h
    exact .setFlushed
  | insert t =>
    obtain ⟨q, hq, heq⟩ := Option.map_eq_some_iff.mp h
    cases heq
    exact .insert (insertElement_exec hq)
  | unlockAlone =>
    cases h
    exact .unclaim

/-- What a step of the build is: a party moves, a participant links its node, or the
leader takes over. -/
theorem spillStep_cases [Fintype W] {κ : Type} {view : IndexedRow V → κ} {a : SpillAction W}
    (hview : (∃ f, view = f ∘ IndexedRow.key) ∨ SpillClear oc overlay s a)
    (h : spillStep H oc overlay fuel b s a = some s') :
    (∃ p x' m', Moves oc b p (s.parties p) s.shared x' m' ∧
      s' = ⟨m', Function.update s.parties p x'⟩) ∨
    (∃ g, g.rows.map view = s.shared.graph.rows.map view ∧
      s' = { s with shared := { s.shared with graph := g } }) ∨
    ((s.parties none).pc = .waiting ∧
      (∀ w, (s.parties (some w)).pc = .next ∧ (s.parties (some w)).todo = []) ∧
      s' = { s with parties := Function.update s.parties none ⟨.lockAlone none, (s.parties none).todo⟩ }) := by
  cases a with
  | move p drawn =>
    obtain ⟨⟨x', m'⟩, hmove, rfl⟩ := Option.map_eq_some_iff.mp h
    exact .inl ⟨p, x', m', moveParty_moves hmove, rfl⟩
  | rewire w id k slot =>
    simp only [spillStep] at h
    split at h <;> cases h
    exact .inr (.inl ⟨_, congrArg _ (rows_rewire ..), rfl⟩)
  | retry w id count =>
    simp only [spillStep] at h
    split at h
    · cases h
    · obtain ⟨new, hnew, h⟩ := Option.bind_eq_some_iff.mp h
      obtain ⟨g, hg, rfl⟩ := Option.map_eq_some_iff.mp h
      refine .inr (.inl ⟨g, ?_, rfl⟩)
      obtain ⟨f, rfl⟩ | hclear := hview
      · rw [← Multiset.map_map, ← Multiset.map_map, retry_keys hg]
      · rw [retry_rows hg (hclear new hnew)]
  | enter w id =>
    simp only [spillStep] at h
    split at h <;> cases h
    exact .inr (.inl ⟨{ s.shared.graph with entryId := id }, rfl, rfl⟩)
  | adopt =>
    simp only [spillStep] at h
    split at h
    · split at h <;> cases h
      rename_i hwaiting hdone
      refine .inr (.inr ⟨hwaiting, fun w => ?_, rfl⟩)
      have hw := hdone w
      rw [Bool.and_eq_true] at hw
      refine ⟨?_, List.isEmpty_iff.mp hw.2⟩
      cases hpc : (s.parties (some w)).pc <;> rw [hpc] at hw <;> first | rfl | cases hw.1
    · cases h

end

/-! ### The invariant -/

section
variable {W V Q D : Type} [DecidableEq W] [Inhabited Q]

/-- **The discipline of the flush lock**, and what the parties know of the flush. -/
structure Orderly (s : Spill W V Q) : Prop where
  lock : s.shared.flushLock.Agrees fun p => (s.parties p).pc.hold
  unflushed : ∀ p, (s.parties p).pc.unflushed → s.shared.flushed = false
  flushed : ∀ p, (s.parties p).pc.flushed → s.shared.flushed = true
  closing : ∀ p, (s.parties p).pc.closing → s.shared.flushes = 1
  after : s.shared.flushed = true → s.shared.flushes = 1
  before : s.shared.flushed = false → (∀ p, (s.parties p).pc.closing = false) →
    s.shared.flushes = 0
  leader : (s.parties none).leading
  scanned : (s.parties none).pc.isWaiting = false →
    ∀ w, (s.parties (some w)).pc = .next ∧ (s.parties (some w)).todo = []

variable {oc : Opclass V Q D} {b : SpillParams} {p : Option W} {x x' : Participant V}
  {m m' : SpillShared W V Q} {s s' : Spill W V Q}

theorem hold_closing {pc : SpillPc V} (h : pc.closing) : pc.hold = .alone := by
  cases pc <;> first | rfl | cases h

theorem hold_unflushed {pc : SpillPc V} (h : pc.unflushed) : pc.hold ≠ .free := by
  intro hfree
  cases pc <;> simp_all [SpillPc.hold, SpillPc.unflushed]

omit [DecidableEq W] [Inhabited Q] in
/-- Before its flush a party is not past anyone's. -/
theorem Orderly.flushes_eq_zero (h : Orderly s) (hp : (s.parties p).pc.unflushed)
    (hclosing : (s.parties p).pc.closing = false) : s.shared.flushes = 0 := by
  apply h.before (h.unflushed p hp)
  intro p'
  by_contra hp'
  have hp' : (s.parties p').pc.closing = true := by simpa using hp'
  have hne : p ≠ p' := by
    rintro rfl
    rw [hclosing] at hp'
    cases hp'
  exact hold_unflushed hp (h.lock.excludes (hold_closing hp') hne)

/-- What a step of a party does to the flush lock. -/
theorem Moves.lock (h : Moves oc b p x m x' m') :
    x'.pc.hold = x.pc.hold ∧ m'.flushLock = m.flushLock ∨
      x'.pc.hold = .shared ∧ m.flushLock.share p = some m'.flushLock ∨
      x'.pc.hold = .alone ∧ m.flushLock.claim p = some m'.flushLock ∨
      x'.pc.hold = .free ∧ m'.flushLock = m.flushLock.release p := by
  cases h with
  | take =>
    refine .inl ⟨?_, rfl⟩
    unfold takeTuple
    cases buildCallback b.hasFilter _ <;> rfl
  | share hl => exact .inr (.inl ⟨rfl, hl⟩)
  | claim hl => exact .inr (.inr (.inl ⟨rfl, hl⟩))
  | unshare => exact .inr (.inr (.inr ⟨hold_retry _, rfl⟩))
  | unclaim => exact .inr (.inr (.inr ⟨by dsimp only; split <;> rfl, rfl⟩))
  | done | setFlushed => exact .inl ⟨hold_onDisk _, rfl⟩
  | late | early | full | push | linked | first | flush | insert => exact .inl ⟨rfl, rfl⟩

theorem Orderly.lock_moves (h : Orderly s) (hmove : Moves oc b p (s.parties p) s.shared x' m') :
    m'.flushLock.Agrees fun p' => (Function.update s.parties p x' p').pc.hold := by
  have heq : (fun p' => (Function.update s.parties p x' p').pc.hold) =
      Function.update (fun p' => (s.parties p').pc.hold) p x'.pc.hold := by
    funext p'
    simp only [Function.update_apply]
    split <;> rfl
  rw [heq]
  obtain ⟨hhold, hlock⟩ | ⟨hhold, hlock⟩ | ⟨hhold, hlock⟩ | ⟨hhold, hlock⟩ := hmove.lock
  · rw [hlock]
    exact h.lock.keep hhold
  · rw [hhold]
    exact h.lock.share hlock
  · rw [hhold]
    exact h.lock.claim hlock
  · rw [hhold, hlock]
    exact h.lock.release

/-- What a step of a party does to the flush and what the party then knows of it. -/
inductive Phases (x : Participant V) (m : SpillShared W V Q) (x' : Participant V)
    (m' : SpillShared W V Q) : Prop
  | quiet (hflushed : m'.flushed = m.flushed) (hflushes : m'.flushes = m.flushes)
    (hopen : x.pc.closing = false) (hopen' : x'.pc.closing = false)
    (hunflushed : x'.pc.unflushed → x.pc.unflushed ∨ m.flushed = false)
    (hafter : x'.pc.flushed → x.pc.flushed ∨ m.flushed = true)
  | flush (hpc : x.pc.flushing) (hflushed : m'.flushed = m.flushed)
    (hflushes : m'.flushes = m.flushes + 1) (hunflushed : x.pc.unflushed)
    (hclosing : x'.pc.closing) (hafter : x'.pc.flushed = false)
  | record (hclosing : x.pc.closing) (hflushed : m'.flushed = true) (hflushes : m'.flushes = m.flushes)
    (hopen' : x'.pc.closing = false) (hunflushed : x'.pc.unflushed = false)

theorem Moves.phases (h : Moves oc b p x m x' m') : Phases x m x' m' := by
  cases h with
  | take =>
    unfold takeTuple
    cases buildCallback b.hasFilter _ <;>
      exact .quiet rfl rfl rfl rfl (by intro h; cases h) (by intro h; cases h)
  | flush => exact .flush rfl rfl rfl rfl rfl rfl
  | setFlushed => exact .record rfl rfl rfl (closing_onDisk _) (unflushed_onDisk _)
  | early hflushed | first hflushed =>
    exact .quiet rfl rfl rfl rfl (fun _ => .inr hflushed) (by intro h; cases h)
  | done hflushed =>
    exact .quiet rfl rfl rfl (closing_onDisk _) (by simp) (fun _ => .inr hflushed)
  | unshare => exact .quiet rfl rfl rfl (closing_retry _) (by simp) (by simp)
  | unclaim =>
    cases p <;> exact .quiet rfl rfl rfl rfl (by intro h; cases h) (fun _ => .inl rfl)
  | share | late | full | push | linked | claim =>
    exact .quiet rfl rfl rfl rfl (by first | exact .inl | (intro h; cases h)) (by intro h; cases h)
  | insert => exact .quiet rfl rfl rfl rfl (by intro h; cases h) (fun _ => .inl rfl)

/-- The leader goes through its last block. -/
theorem Moves.leading (h : Moves oc b (none : Option W) x m x' m') (hx : x.leading) :
    x'.leading ∧ x.pc.isWaiting = false ∧ x'.pc.isWaiting = false := by
  cases h with
  | take | share | late | early | full | push | linked | unshare | insert => cases hx
  | unclaim => exact ⟨hx, rfl, rfl⟩
  | @claim t | @done t | @first t | @flush t | @setFlushed t =>
    cases t with
    | none => exact ⟨hx, rfl, rfl⟩
    | some t => cases hx

omit [Inhabited Q] in
/-- The order of things after one party has changed. -/
theorem Orderly.update (h : Orderly s)
    (hlock : m'.flushLock.Agrees fun p' => (Function.update s.parties p x' p').pc.hold)
    (hphases : Phases (s.parties p) s.shared x' m')
    (hleader : (Function.update s.parties p x' none).leading)
    (hover : (Function.update s.parties p x' none).pc.isWaiting = false →
      ∀ w, (Function.update s.parties p x' (some w)).pc = .next ∧
        (Function.update s.parties p x' (some w)).todo = []) :
    Orderly ⟨m', Function.update s.parties p x'⟩ := by
  have hothers : ∀ {P : Participant V → Prop}, P x' → (∀ p', p' ≠ p → P (s.parties p')) →
      ∀ p', P (Function.update s.parties p x' p') := by
    intro P hx hrest p'
    rw [Function.update_apply]
    split
    · exact hx
    · exact hrest p' ‹_›
  cases hphases with
  | quiet hflushed hflushes hopen hopen' hunflushed hafter =>
    refine ⟨hlock, ?_, ?_, ?_, ?_, ?_, hleader, hover⟩
    · refine hothers (P := fun y => y.pc.unflushed → m'.flushed = false) ?_ ?_
      · intro hx
        rw [hflushed]
        obtain hx | hm := hunflushed hx
        · exact h.unflushed p hx
        · exact hm
      · intro p' _ hp'
        rw [hflushed]
        exact h.unflushed p' hp'
    · refine hothers (P := fun y => y.pc.flushed → m'.flushed = true) ?_ ?_
      · intro hx
        rw [hflushed]
        obtain hx | hm := hafter hx
        · exact h.flushed p hx
        · exact hm
      · intro p' _ hp'
        rw [hflushed]
        exact h.flushed p' hp'
    · refine hothers (P := fun y => y.pc.closing → m'.flushes = 1) ?_ ?_
      · intro hx
        rw [hopen'] at hx
        cases hx
      · intro p' _ hp'
        rw [hflushes]
        exact h.closing p' hp'
    · intro hm
      rw [hflushes]
      exact h.after (hflushed.symm.trans hm)
    · intro hm hclosed
      rw [hflushes]
      apply h.before (hflushed.symm.trans hm)
      intro p'
      by_cases hp : p' = p
      · rw [hp]
        exact hopen
      · have hp' := hclosed p'
        simp only [Function.update_of_ne hp] at hp'
        exact hp'
  | flush hpc hflushed hflushes hunflushed hclosing hafter =>
    have hopen : (s.parties p).pc.closing = false := by
      cases hx : (s.parties p).pc <;> first | rfl | (rw [hx] at hpc; cases hpc)
    have halone : (s.parties p).pc.hold = .alone := by
      cases hx : (s.parties p).pc <;> first | rfl | (rw [hx] at hpc; cases hpc)
    have hzero := h.flushes_eq_zero hunflushed hopen
    have hm := h.unflushed p hunflushed
    refine ⟨hlock, ?_, ?_, ?_, ?_, ?_, hleader, hover⟩
    · refine hothers (P := fun y => y.pc.unflushed → m'.flushed = false) ?_ ?_
      · intro _
        exact hflushed.trans hm
      · intro p' _ hp'
        rw [hflushed]
        exact h.unflushed p' hp'
    · refine hothers (P := fun y => y.pc.flushed → m'.flushed = true) ?_ ?_
      · intro hx
        rw [hafter] at hx
        cases hx
      · intro p' _ hp'
        rw [hflushed]
        exact h.flushed p' hp'
    · refine hothers (P := fun y => y.pc.closing → m'.flushes = 1) ?_ ?_
      · intro _
        rw [hflushes, hzero]
      · intro p' hne hp'
        have hfree := h.lock.excludes halone hne
        rw [hold_closing hp'] at hfree
        cases hfree
    · intro hm'
      rw [hflushed, hm] at hm'
      cases hm'
    · intro _ hclosed
      have hp := hclosed p
      simp only [Function.update_self, hclosing] at hp
      cases hp
  | record hclosing hflushed hflushes hopen' hunflushed =>
    have halone : (s.parties p).pc.hold = .alone := hold_closing hclosing
    have hone := h.closing p hclosing
    refine ⟨hlock, ?_, ?_, ?_, ?_, ?_, hleader, hover⟩
    · refine hothers (P := fun y => y.pc.unflushed → m'.flushed = false) ?_ ?_
      · intro hx
        rw [hunflushed] at hx
        cases hx
      · intro p' hne hp'
        exact absurd (h.lock.excludes halone hne) (hold_unflushed hp')
    · intro _ _
      exact hflushed
    · refine hothers (P := fun y => y.pc.closing → m'.flushes = 1) ?_ ?_
      · intro hx
        rw [hopen'] at hx
        cases hx
      · intro p' _ hp'
        rw [hflushes]
        exact h.closing p' hp'
    · intro _
      exact hflushes.trans hone
    · intro hm
      rw [hflushed] at hm
      cases hm

/-- **A step of a party keeps the order of things.** -/
theorem Orderly.moves (h : Orderly s) (hmove : Moves oc b p (s.parties p) s.shared x' m') :
    Orderly ⟨m', Function.update s.parties p x'⟩ := by
  apply h.update (h.lock_moves hmove) hmove.phases
  · cases p with
    | none =>
      rw [Function.update_self]
      exact (hmove.leading h.leader).1
    | some w =>
      rw [Function.update_of_ne (by simp)]
      exact h.leader
  · cases p with
    | none =>
      intro _ w
      rw [Function.update_of_ne (by simp)]
      exact h.scanned (hmove.leading h.leader).2.1 w
    | some w =>
      rw [Function.update_of_ne (by simp)]
      intro hover
      -- a participant that is done does not move
      obtain ⟨hpc, htodo⟩ := h.scanned hover w
      have hstuck : s.parties (some w) = ⟨.next, []⟩ := by rw [← hpc, ← htodo]
      rw [hstuck] at hmove
      cases hmove

omit [Inhabited Q] in
/-- The leader takes over. -/
theorem Orderly.adopt (h : Orderly s) (hwaiting : (s.parties none).pc = .waiting)
    (hdone : ∀ w, (s.parties (some w)).pc = .next ∧ (s.parties (some w)).todo = []) :
    Orderly ⟨s.shared,
      Function.update s.parties none ⟨.lockAlone none, (s.parties none).todo⟩⟩ := by
  apply h.update
  · have heq : (fun p' => (Function.update s.parties none
        ⟨.lockAlone none, (s.parties none).todo⟩ p').pc.hold) =
        fun p' => (s.parties p').pc.hold := by
      funext p'
      rw [Function.update_apply]
      split
      · rename_i hp
        rw [hp, hwaiting]
        rfl
      · rfl
    rw [heq]
    exact h.lock
  · exact .quiet rfl rfl (by rw [hwaiting]; rfl) rfl (by intro h; cases h) (by intro h; cases h)
  · rw [Function.update_self]
    have hleader := h.leader
    rw [Participant.leading, hwaiting] at hleader
    exact hleader
  · intro _ w
    rw [Function.update_of_ne (by simp)]
    exact hdone w

end

/-! ### The ledger -/

section
variable {W V Q D : Type} [DecidableEq W] [Inhabited Q]

/-- The tuple a party works on, until it is in the graph or on disk. -/
def SpillPc.pending : SpillPc V → List (Scanned V)
  | .lockShared t | .checkShared t | .push t | .insert t => [t]
  | .unlockShared t | .lockAlone t | .checkAlone t | .flush t | .setFlushed t => t.toList
  | .waiting | .next | .link _ | .unlockAlone | .finished => []

/-- The rows a scan is to give. -/
def tupleRows (b : SpillParams) (ts : List (HeapTuple V)) : Multiset (IndexedRow V) :=
  scannedRows (ts.filterMap (buildCallback b.hasFilter))

/-- What is still to come of a party. -/
def Participant.rows (b : SpillParams) (x : Participant V) : Multiset (IndexedRow V) :=
  scannedRows x.pc.pending + tupleRows b x.todo

/-- What is in the graph, before the flush, and on disk. -/
def SpillShared.rows (m : SpillShared W V Q) : Multiset (IndexedRow V) :=
  diskRows m.disk + if m.flushes = 0 then m.graph.rows else 0

@[simp] theorem pending_onDisk (t : Option (Scanned V)) : (SpillPc.onDisk t).pending = t.toList := by
  cases t <;> rfl

@[simp] theorem pending_retry (t : Option (Scanned V)) : (SpillPc.retry t).pending = t.toList := by
  cases t <;> rfl

@[simp] theorem scannedRows_nil : scannedRows ([] : List (Scanned V)) = 0 := rfl

@[simp] theorem scannedRows_singleton (t : Scanned V) : scannedRows [t] = {t.row} := rfl

theorem takeTuple_rows (b : SpillParams) (t : HeapTuple V) (rest : List (HeapTuple V)) :
    (takeTuple b t rest).rows b = tupleRows b (t :: rest) := by
  unfold takeTuple Participant.rows tupleRows
  cases ht : buildCallback b.hasFilter t with
  | none => simp [ht, SpillPc.pending]
  | some t' => simp [ht, SpillPc.pending, scannedRows, ← Multiset.cons_coe]

variable {oc : Opclass V Q D} {b : SpillParams} {p : Option W} {x x' : Participant V}
  {m m' : SpillShared W V Q} {s s' : Spill W V Q}

/-- **A step of a party loses no row and adds none.** -/
theorem Moves.rows (h : Moves oc b p x m x' m')
    (hzero : x.pc.unflushed → x.pc.closing = false → m.flushes = 0) :
    m'.rows + x'.rows b = m.rows + x.rows b := by
  cases h with
  | take =>
    rw [takeTuple_rows]
    simp [Participant.rows, SpillPc.pending]
  | share | late | early | full | linked | claim | first => rfl
  | @unshare t | @done t | @setFlushed t => cases t <;> rfl
  | unclaim => cases p <;> rfl
  | push drawn id used =>
    have hm := hzero rfl rfl
    simp only [Participant.rows, SpillShared.rows, SpillPc.pending, hm, rows_push, if_true,
      scannedRows_nil, scannedRows_singleton]
    abel
  | @flush t todo m disk hdisk =>
    have hm := hzero rfl rfl
    simp [Participant.rows, SpillShared.rows, SpillPc.pending, hm, memFlush_rows hdisk]
  | insert hdisk =>
    simp only [Participant.rows, SpillShared.rows, SpillPc.pending, hdisk, scannedRows_nil,
      scannedRows_singleton]
    abel

variable [Fintype W]

/-- **The ledger**: what is stored and what is to come is what there was, by what is looked
at of a row. -/
def Kept {κ : Type} (view : IndexedRow V → κ) (b : SpillParams) (total : Multiset (IndexedRow V))
    (s : Spill W V Q) : Prop :=
  (s.shared.rows + ∑ p, (s.parties p).rows b).map view = total.map view

omit [Inhabited Q] in
theorem Kept.update {κ : Type} {view : IndexedRow V → κ} {total : Multiset (IndexedRow V)}
    (h : Kept view b total s)
    (hrows : m'.rows + x'.rows b = s.shared.rows + (s.parties p).rows b) :
    Kept view b total ⟨m', Function.update s.parties p x'⟩ := by
  have hsum : ∑ p', (Function.update s.parties p x' p').rows b + (s.parties p).rows b =
      ∑ p', (s.parties p').rows b + x'.rows b := sum_share_update p x'
  have hsame : m'.rows + ∑ p', (Function.update s.parties p x' p').rows b =
      s.shared.rows + ∑ p', (s.parties p').rows b := by
    apply add_right_cancel (b := (s.parties p).rows b)
    calc m'.rows + ∑ p', (Function.update s.parties p x' p').rows b + (s.parties p).rows b
        = m'.rows + (∑ p', (s.parties p').rows b + x'.rows b) := by rw [add_assoc, hsum]
      _ = m'.rows + x'.rows b + ∑ p', (s.parties p').rows b := by abel
      _ = s.shared.rows + (s.parties p).rows b + ∑ p', (s.parties p').rows b := by rw [hrows]
      _ = s.shared.rows + ∑ p', (s.parties p').rows b + (s.parties p).rows b := by abel
  unfold Kept at h ⊢
  rw [hsame]
  exact h

omit [DecidableEq W] [Inhabited Q] in
/-- The graph is changed, and nothing of its rows that is looked at. -/
theorem Kept.regraph {κ : Type} {view : IndexedRow V → κ} {total : Multiset (IndexedRow V)}
    {g : BuildGraph V} (h : Kept view b total s)
    (hg : g.rows.map view = s.shared.graph.rows.map view) :
    Kept view b total { s with shared := { s.shared with graph := g } } := by
  unfold Kept SpillShared.rows at h ⊢
  rw [← h]
  simp only [Multiset.map_add]
  split
  · rw [hg]
  · rfl

variable [CDouble D] {H : PairingHeap} {overlay : V → Nat → V} {fuel : Nat}

/-- **The order and the ledger survive every step.** -/
theorem spillStep_keeps {κ : Type} {view : IndexedRow V → κ} {total : Multiset (IndexedRow V)}
    {a : SpillAction W} (hview : (∃ f, view = f ∘ IndexedRow.key) ∨ SpillClear oc overlay s a)
    (hs : Orderly s ∧ Kept view b total s) (h : spillStep H oc overlay fuel b s a = some s') :
    Orderly s' ∧ Kept view b total s' := by
  obtain ⟨p, x', m', hmove, rfl⟩ | ⟨g, hrows, rfl⟩ | ⟨hwaiting, hdone, rfl⟩ :=
    spillStep_cases hview h
  · exact ⟨hs.1.moves hmove, hs.2.update (hmove.rows hs.1.flushes_eq_zero)⟩
  · exact ⟨⟨hs.1.lock, hs.1.unflushed, hs.1.flushed, hs.1.closing, hs.1.after, hs.1.before,
      hs.1.leader, hs.1.scanned⟩, hs.2.regraph hrows⟩
  · refine ⟨hs.1.adopt hwaiting hdone, hs.2.update ?_⟩
    simp only [Participant.rows, hwaiting]
    rfl

omit [DecidableEq W] [Inhabited Q] [Fintype W] [CDouble D] in
theorem Orderly.init (meta_ : MetaPage) (tuples : W → List (HeapTuple V)) :
    Orderly (Spill.init (Q := Q) meta_ tuples) := by
  have hpc : ∀ p, ((Spill.init (Q := Q) meta_ tuples).parties p).pc = .waiting ∨
      ((Spill.init (Q := Q) meta_ tuples).parties p).pc = .next := by
    intro p
    cases p with
    | none => exact .inl rfl
    | some w => exact .inr rfl
  refine ⟨RwLock.Agrees.free ?_, ?_, ?_, ?_, ?_, fun _ _ => rfl, rfl, ?_⟩
  · intro p
    obtain hp | hp := hpc p <;> rw [hp] <;> rfl
  · intro p h
    obtain hp | hp := hpc p <;> rw [hp] at h <;> cases h
  · intro p h
    obtain hp | hp := hpc p <;> rw [hp] at h <;> cases h
  · intro p h
    obtain hp | hp := hpc p <;> rw [hp] at h <;> cases h
  · intro h
    cases h
  · intro h
    cases h

omit [DecidableEq W] [Inhabited Q] [CDouble D] in
theorem Kept.init {κ : Type} (view : IndexedRow V → κ) (b : SpillParams) (meta_ : MetaPage)
    (tuples : W → List (HeapTuple V)) :
    Kept view b (∑ w, tupleRows b (tuples w)) (Spill.init (Q := Q) meta_ tuples) := by
  have hshared : (Spill.init (Q := Q) meta_ tuples).shared.rows = 0 := rfl
  unfold Kept
  rw [hshared, zero_add, Fintype.sum_option]
  exact congrArg _ (zero_add _)

omit [DecidableEq W] [Inhabited Q] [CDouble D] in
/-- When the leader is done there is nothing to come. -/
theorem Orderly.nothing_left (h : Orderly s) (hfinished : (s.parties none).pc = .finished) :
    ∑ p, (s.parties p).rows b = 0 := by
  have hover := h.scanned (by rw [hfinished]; rfl)
  have htodo : (s.parties none).todo = [] := by
    have hleader := h.leader
    rw [Participant.leading, Bool.and_eq_true] at hleader
    exact List.isEmpty_iff.mp hleader.2
  apply Finset.sum_eq_zero
  intro p _
  unfold Participant.rows
  cases p with
  | none =>
    rw [hfinished, htodo]
    rfl
  | some w =>
    obtain ⟨hpc, hnil⟩ := hover w
    rw [hpc, hnil]
    rfl

end

/-! ### A serial build -/

/-- `maintenance_work_mem` in bytes and the sizes of the structs. -/
structure Budget where
  memTotal : Nat
  nodeStruct : Nat
  overhead : Nat

/-- `AcornMemBuild` of a serial build and the index; `flushes` counts the runs of
`acorn_mem_flush`. -/
structure SerialBuild (V Q : Type) where
  graph : BuildGraph V
  memUsed : Nat
  capacity : Nat
  flushed : Bool
  disk : Disk Tid V Q
  flushes : Nat

/-- What the source leaves to chance and to `acorn_mem_insert_node`: the levels drawn
for a tuple, in memory and on disk, and the slots and the entry point that are written.
The slots of a node are an allocation of their own here; in front of them is its header,
which nothing reads, and no vector. -/
structure SerialChoice where
  drawn : Nat
  redrawn : Nat
  links : List (Nat × Nat × Int)
  entryId : Int

section
variable {V Q D : Type} [CDouble D] [Inhabited Q] (H : PairingHeap)
  (oc : Opclass V Q D) (fuel : Nat) (b : SpillParams) (budget : Budget)

/-- What a push charges for room in the node array. -/
def SerialBuild.growth (s : SerialBuild V Q) : Nat :=
  if s.graph.nodes.length ≥ s.capacity then s.capacity * budget.nodeStruct else 0

/-- `acorn_mem_node_cost`. -/
def memNodeCost (s : SerialBuild V Q) (level vsize : Nat) : Nat :=
  nodeBytes b.graph level vsize + s.growth budget

/-- `acorn_mem_push_node` and `acorn_mem_insert_node`. -/
def serialPush (s : SerialBuild V Q) (t : Scanned V) (c : SerialChoice) : SerialBuild V Q :=
  let graph := s.graph.push (t.node b.graph c.drawn)
  let graph := c.links.foldl (fun g l => g.rewire l.1 l.2.1 l.2.2) graph
  let capacity := if s.graph.nodes.length ≥ s.capacity then s.capacity * 2 else s.capacity
  let memUsed := s.memUsed +
    memNodeCost b budget s (assignLevel b.graph.mEff c.drawn) (oc.vsize t.value)
  { s with graph := { graph with entryId := c.entryId }, memUsed := memUsed, capacity := capacity }

/-- `acorn_mem_flush` of a serial build. -/
def serialFlush (s : SerialBuild V Q) : Option (SerialBuild V Q) :=
  (memFlush oc b.graph s.graph s.disk).map fun disk =>
    { s with disk := disk, flushed := true, flushes := s.flushes + 1 }

/-- Where the graph is not flushed yet, it is now. -/
def flushOnce (s : SerialBuild V Q) : Option (SerialBuild V Q) :=
  if s.flushed then some s else serialFlush oc b s

/-- `acorn_build_insert_tuple` of a serial build. -/
def serialInsert (t : Scanned V) (c : SerialChoice) (s : SerialBuild V Q) :
    Option (SerialBuild V Q) :=
  let needed := memNodeCost b budget s (assignLevel b.graph.mEff c.drawn) (oc.vsize t.value)
  if !s.flushed && decide (s.memUsed + needed ≤ budget.memTotal) then
    some (serialPush oc b budget s t c)
  else do
    let s ← flushOnce oc b s
    let q ← (insertElement H oc b.natts fuel t.tid b.opts (t.toRow c.redrawn b.defaultGamma)
      t.value).exec s.disk
    some { s with disk := q.2 }

/-- `acorn_build_callback` of a serial build. -/
def serialTuple (s : SerialBuild V Q) (p : HeapTuple V × SerialChoice) : Option (SerialBuild V Q) :=
  match buildCallback b.hasFilter p.1 with
  | none => some s
  | some t => serialInsert H oc fuel b budget t p.2 s

/-- The beginning of a build: room for 1024 nodes. -/
def SerialBuild.init (meta_ : MetaPage) : SerialBuild V Q :=
  ⟨.empty, 1024 * budget.nodeStruct + budget.overhead, 1024, false, .created meta_, 0⟩

/-- A serial build: the scan, and a flush if there was none. -/
def serialBuild (meta_ : MetaPage) (tuples : List (HeapTuple V × SerialChoice)) :
    Option (SerialBuild V Q) := do
  let s ← tuples.foldlM (serialTuple H oc fuel b budget) (.init budget meta_)
  flushOnce oc b s

end

section
variable {V Q D : Type} [CDouble D] [Inhabited Q] {H : PairingHeap}
  {oc : Opclass V Q D} {fuel : Nat} {b : SpillParams} {budget : Budget} {s s' : SerialBuild V Q}

/-- What is stored, in memory before the flush and on disk, and how often it was
flushed. -/
structure Stored (total : Multiset (IndexedRow V)) (s : SerialBuild V Q) : Prop where
  rows : diskRows s.disk + (if s.flushed then 0 else s.graph.rows) = total
  flushes : s.flushes = if s.flushed then 1 else 0

omit [CDouble D] in
theorem serialFlush_stored {total : Multiset (IndexedRow V)} (hs : Stored total s)
    (hopen : s.flushed = false) (h : serialFlush oc b s = some s') :
    Stored total s' ∧ s'.flushed = true := by
  obtain ⟨disk, hdisk, rfl⟩ := Option.map_eq_some_iff.mp h
  have hrows := hs.rows
  have hflushes := hs.flushes
  simp only [hopen, Bool.false_eq_true, if_false] at hrows hflushes
  refine ⟨⟨?_, ?_⟩, rfl⟩
  · simp only [if_true, add_zero]
    rw [memFlush_rows hdisk, hrows]
  · simp [hflushes]

omit [CDouble D] in
theorem flushOnce_stored {total : Multiset (IndexedRow V)} (hs : Stored total s)
    (h : flushOnce oc b s = some s') : Stored total s' ∧ s'.flushed = true := by
  unfold flushOnce at h
  split at h
  · obtain rfl := Option.some.inj h
    exact ⟨hs, ‹_›⟩
  · exact serialFlush_stored hs (Bool.eq_false_iff.mpr ‹_›) h

omit [CDouble D] [Inhabited Q] in
theorem rows_serialPush (t : Scanned V) (c : SerialChoice) (s : SerialBuild V Q) :
    (serialPush oc b budget s t c).graph.rows = s.graph.rows + {t.row} := by
  have hlinks : ∀ (links : List (Nat × Nat × Int)) (g : BuildGraph V),
      (links.foldl (fun g l => g.rewire l.1 l.2.1 l.2.2) g).rows = g.rows := by
    intro links
    induction links with
    | nil => intro g; rfl
    | cons l links ih =>
      intro g
      rw [List.foldl_cons, ih, rows_rewire]
  rw [← rows_push b.graph s.graph t c.drawn]
  exact hlinks c.links _

/-- **One tuple is stored once.** -/
theorem serialInsert_stored {total : Multiset (IndexedRow V)} {t : Scanned V} {c : SerialChoice}
    (hs : Stored total s) (h : serialInsert H oc fuel b budget t c s = some s') :
    Stored (total + {t.row}) s' := by
  simp only [serialInsert] at h
  split at h
  · rename_i hroom
    obtain rfl := Option.some.inj h
    rw [Bool.and_eq_true, Bool.not_eq_true'] at hroom
    have hrows := hs.rows
    have hflushes := hs.flushes
    simp only [hroom.1, Bool.false_eq_true, if_false] at hrows hflushes
    have hflushed : (serialPush oc b budget s t c).flushed = false := hroom.1
    refine ⟨?_, ?_⟩
    · simp only [hflushed, Bool.false_eq_true, if_false]
      rw [rows_serialPush, ← add_assoc]
      exact congrArg (· + {t.row}) hrows
    · simp only [hflushed, Bool.false_eq_true, if_false]
      exact hflushes
  · obtain ⟨s₁, hflush, h⟩ := Option.bind_eq_some_iff.mp h
    obtain ⟨q, hinsert, h⟩ := Option.bind_eq_some_iff.mp h
    obtain rfl := Option.some.inj h
    have hs₁ := flushOnce_stored hs hflush
    have hrows := hs₁.1.rows
    simp only [hs₁.2, if_true, add_zero] at hrows
    refine ⟨?_, hs₁.1.flushes⟩
    simp only [hs₁.2, if_true, add_zero]
    rw [insertElement_exec hinsert, hrows]
    rfl

theorem serialTuple_stored {total : Multiset (IndexedRow V)} {p : HeapTuple V × SerialChoice}
    (hs : Stored total s) (h : serialTuple H oc fuel b budget s p = some s') :
    Stored (total + tupleRows b [p.1]) s' := by
  unfold serialTuple at h
  split at h
  · rename_i hnull
    obtain rfl := Option.some.inj h
    simpa [tupleRows, hnull] using hs
  · rename_i t ht
    simpa [tupleRows, ht] using serialInsert_stored hs h

theorem tupleRows_cons (b : SpillParams) (t : HeapTuple V) (ts : List (HeapTuple V)) :
    tupleRows b (t :: ts) = tupleRows b [t] + tupleRows b ts := by
  cases ht : buildCallback b.hasFilter t <;> simp [tupleRows, scannedRows, ht, ← Multiset.cons_coe]

/-- **A serial scan stores its tuples once.** -/
theorem serialScan_stored {total : Multiset (IndexedRow V)}
    {tuples : List (HeapTuple V × SerialChoice)} (hs : Stored total s)
    (h : tuples.foldlM (serialTuple H oc fuel b budget) s = some s') :
    Stored (total + tupleRows b (tuples.map Prod.fst)) s' := by
  induction tuples generalizing s total with
  | nil =>
    obtain rfl := Option.some.inj h
    have hnil : total + tupleRows b (List.map Prod.fst ([] : List (HeapTuple V × SerialChoice))) =
        total := add_zero total
    rw [hnil]
    exact hs
  | cons p tuples ih =>
    rw [List.foldlM_cons] at h
    obtain ⟨s₁, hfirst, hrest⟩ := Option.bind_eq_some_iff.mp h
    rw [List.map_cons, tupleRows_cons, ← add_assoc]
    exact ih (serialTuple_stored hs hfirst) hrest

theorem serialBuild_rows {meta_ : MetaPage} {tuples : List (HeapTuple V × SerialChoice)}
    (h : serialBuild H oc fuel b budget meta_ tuples = some s') :
    s'.flushes = 1 ∧ diskRows s'.disk = tupleRows b (tuples.map Prod.fst) := by
  obtain ⟨s, hscan, h⟩ := Option.bind_eq_some_iff.mp h
  have hinit : Stored 0 (SerialBuild.init (V := V) (Q := Q) budget meta_) := ⟨rfl, rfl⟩
  have hs := serialScan_stored hinit hscan
  rw [zero_add] at hs
  have hend := flushOnce_stored hs h
  have hrows := hend.1.rows
  have hflushes := hend.1.flushes
  simp only [hend.2, if_true, add_zero] at hrows hflushes
  exact ⟨hflushes, hrows⟩

variable {W : Type} [DecidableEq W] [Fintype W] {tuples : W → List (HeapTuple V)} {s : Spill W V Q}
  {overlay : V → Nat → V}

/-- **Every state of a parallel build has the rows the heap tuples are to give**, but for the
vectors, and with these if no step changes one. -/
theorem spill_kept {κ : Type} (view : IndexedRow V → κ) {meta_ : MetaPage}
    {ok : Spill W V Q → SpillAction W → Prop}
    (hview : ∀ s a, ok s a → (∃ f, view = f ∘ IndexedRow.key) ∨ SpillClear oc overlay s a)
    (h : Runs (spillStep H oc overlay fuel b) ok (.init meta_ tuples) s) :
    Orderly s ∧ Kept view b (∑ w, tupleRows b (tuples w)) s :=
  h.invariant (I := fun s => Orderly s ∧ Kept view b (∑ w, tupleRows b (tuples w)) s)
    ⟨.init meta_ tuples, .init view b meta_ tuples⟩
    (fun hs hok ha => spillStep_keeps (hview _ _ hok) hs ha)

omit [DecidableEq W] [CDouble D] [Inhabited Q] in
/-- When the leader is done the rows are on disk. -/
theorem Orderly.finished_rows {κ : Type} {view : IndexedRow V → κ}
    {total : Multiset (IndexedRow V)} (hs : Orderly s)
    (hkept : Kept view b total s) (hfinished : (s.parties none).pc = .finished) :
    s.shared.flushes = 1 ∧ (diskRows s.shared.disk).map view = total.map view := by
  have hone := hs.after (hs.flushed none (by rw [hfinished]; rfl))
  refine ⟨hone, ?_⟩
  unfold Kept SpillShared.rows at hkept
  rw [hs.nothing_left hfinished, hone] at hkept
  simpa using hkept

omit [DecidableEq W] [CDouble D] [Inhabited Q] [Fintype W] in
/-- Nobody links a node while another party flushes. -/
theorem Orderly.flush_alone (hs : Orderly s) {p p' : Option W}
    (hflushing : (s.parties p).pc.flushing) : (s.parties p').pc.linking = false := by
  by_contra hlinking
  have halone : (s.parties p).pc.hold = .alone := by
    cases hp : (s.parties p).pc <;> first | rfl | (rw [hp] at hflushing; cases hflushing)
  have hne : p' ≠ p := by
    rintro rfl
    cases hp : (s.parties p').pc <;>
      simp_all [SpillPc.flushing, SpillPc.linking, SpillPc.linked]
  have hfree := hs.lock.excludes halone hne
  cases hp : (s.parties p').pc <;> simp_all [SpillPc.hold, SpillPc.linking, SpillPc.linked]

omit [DecidableEq W] [CDouble D] [Inhabited Q] [Fintype W] in
/-- The graph is flushed at most once. -/
theorem Orderly.flushes_le_one (hs : Orderly s) : s.shared.flushes ≤ 1 := by
  by_cases hclosing : s.shared.flushed = false ∧ ∀ p, (s.parties p).pc.closing = false
  · rw [hs.before hclosing.1 hclosing.2]
    exact Nat.zero_le 1
  · rw [not_and_or] at hclosing
    obtain hflushed | hclosing := hclosing
    · exact (hs.after (by simpa using hflushed)).le
    · rw [not_forall] at hclosing
      obtain ⟨p, hp⟩ := hclosing
      exact (hs.closing p (by simpa using hp)).le

/-- **Every heap tuple with a vector is indexed once.** In every state of a parallel
build nobody links a node while the graph is flushed, and it is flushed at most once.
When a parallel or a serial build ends, it has been flushed once, and the rows of the
index are those of the heap tuples whose vector is not NULL: in a serial build, and in
every run of a parallel build in which no last loop of a reverse edge changes a vector;
in any other run with their heap tuples and filter values. -/
theorem spill_exact (H : PairingHeap) (oc : Opclass V Q D) (overlay : V → Nat → V) (fuel : Nat)
    (b : SpillParams) (budget : Budget) (meta_ : MetaPage) :
    (∀ (tuples : W → List (HeapTuple V)) (s : Spill W V Q),
      Runs (spillStep H oc overlay fuel b) (SpillClear oc overlay) (.init meta_ tuples) s →
        (s.parties none).pc = .finished →
          diskRows s.shared.disk = ∑ w, tupleRows b (tuples w)) ∧
    (∀ (tuples : W → List (HeapTuple V)) (s : Spill W V Q),
      Runs (spillStep H oc overlay fuel b) (fun _ _ => True) (.init meta_ tuples) s →
        (∀ p p', (s.parties p).pc.flushing → (s.parties p').pc.linking = false) ∧
        s.shared.flushes ≤ 1 ∧
        ((s.parties none).pc = .finished →
          s.shared.flushes = 1 ∧ (diskRows s.shared.disk).map IndexedRow.key =
            (∑ w, tupleRows b (tuples w)).map IndexedRow.key)) ∧
    ∀ (tuples : List (HeapTuple V × SerialChoice)) (s : SerialBuild V Q),
      serialBuild H oc fuel b budget meta_ tuples = some s →
        s.flushes = 1 ∧ diskRows s.disk = tupleRows b (tuples.map Prod.fst) := by
  refine ⟨fun tuples s h hfinished => ?_, fun tuples s h => ?_,
    fun tuples s h => serialBuild_rows h⟩
  · obtain ⟨hs, hkept⟩ := spill_kept id (fun _ _ hok => .inr hok) h
    have hrows := (hs.finished_rows hkept hfinished).2
    rwa [Multiset.map_id, Multiset.map_id] at hrows
  · obtain ⟨hs, hkept⟩ := spill_kept IndexedRow.key (fun _ _ _ => .inl ⟨id, rfl⟩) h
    exact ⟨fun p p' => hs.flush_alone, hs.flushes_le_one, hs.finished_rows hkept⟩

end

/-! ### A small build -/

/-- An arena with room for one node. -/
def smallSpill : SpillParams where
  graph := ⟨2, 2, 0, false⟩
  hasFilter := true
  opts := pointOptions
  defaultGamma := 1
  natts := 1
  maxNodes := 1
  arenaSize := 1000

attribute [local instance] neZero_two

def smallMeta : MetaPage := createMetaPage 2 2 0 false

/-- A heap tuple of block 0. -/
def pointTuple (n : Nat) (value : Option Int) : HeapTuple Int := ⟨value, some 7, ⟨0, n⟩⟩

/-- One participant has a point and a NULL, the other one a point. -/
def smallTuples (w : Fin 2) : List (HeapTuple Int) :=
  if w = 0 then [pointTuple 1 (some 0), pointTuple 2 none] else [pointTuple 3 (some 5)]

/-- The vector of a point ends four bytes before its slots. -/
def pointOverlay (v : Int) (_ : Nat) : Int := v

abbrev smallStep : Spill (Fin 2) Int Int → SpillAction (Fin 2) → Option (Spill (Fin 2) Int Int) :=
  spillStep PairingHeap.list points pointOverlay 20 smallSpill

/-- Some steps of one party. -/
def moves (p : Option (Fin 2)) (n : Nat) : List (SpillAction (Fin 2)) := .replicate n (.move p 0)

def smallScan : List (HeapTuple Int × SerialChoice) :=
  [(pointTuple 1 (some 0), ⟨0, 0, [], 0⟩), (pointTuple 2 none, ⟨0, 0, [], 0⟩),
    (pointTuple 3 (some 5), ⟨0, 0, [], 0⟩)]

/-- The budget of a serial build that has room for one node. -/
def smallBudget : Budget := ⟨1060, 1, 10⟩

theorem smallSpill_finishes :
    ∃ s, Runs smallStep (fun _ _ => True) (.init smallMeta smallTuples) s ∧
      (s.parties none).pc = .finished := by
  have hparallel : ((exec (fun s a => if True then smallStep s a else none)
      (.init smallMeta smallTuples)
      (moves (some 0) 4 ++ moves (some 1) 2 ++ [.rewire 0 0 0 (-1), .enter 0 0] ++
        moves (some 0) 2 ++ moves (some 1) 9 ++ moves (some 0) 1 ++ [.adopt] ++ moves none 3)).map
        fun s => decide ((s.parties none).pc = .finished)) = some true := by
    decide +kernel
  obtain ⟨s, hs, hfinished⟩ := Option.map_eq_some_iff.mp hparallel
  exact ⟨s, runs_of_exec hs, of_decide_eq_true hfinished⟩

theorem smallScan_finishes :
    ∃ s, serialBuild PairingHeap.list points 20 smallSpill smallBudget smallMeta smallScan = some s := by
  apply Option.isSome_iff_exists.mp
  decide +kernel

/-! ### A build of seven -/

/-- Two-dimensional vectors by squared distance. Coordinates are in units of `2 ^ -149`, of
which every `float` is a multiple. -/
def squares : Opclass (Int × Int) Int ExtInt where
  dist a b := .fin ((a.1 - b.1) ^ 2 + (a.2 - b.2) ^ 2)
  vsize _ := 16
  dim _ := 2
  sq8Encode _ _ := 0

/-- By minus the inner product, which is a `float`. -/
def innerProducts : Opclass (Int × Int) Int ExtInt where
  dist a b :=
    let p := a.1 * b.1 + a.2 * b.2
    if 2 ^ 426 ≤ p then .negInf else if p ≤ -2 ^ 426 then .posInf else .fin (-p)
  vsize _ := 16
  dim _ := 2
  sq8Encode _ _ := 0

/-- The second coordinate ends where the slots begin. -/
def pairOverlay (v : Int × Int) (new : Nat) : Int × Int := (v.1, new)

/-- `WITH (m = 2, ef_construction = 4)`, in an arena with room for some nodes. -/
def pairSpill (maxNodes : Nat) : SpillParams where
  graph := ⟨2, 2, 2, false⟩
  hasFilter := false
  opts := pointOptions
  defaultGamma := 1
  natts := 1
  maxNodes := maxNodes
  arenaSize := 2 ^ 26

def pairMeta : MetaPage := createMetaPage 2 2 2 false

/-- Two participants have `n` vectors each, one of them a NULL as well. -/
def pairTuples (n : Nat) (value : Nat → Int × Int) (w : Fin 2) : List (HeapTuple (Int × Int)) :=
  ((List.range n).map fun k => ⟨some (value (2 * k + w)), none, ⟨0, 2 * k + w + 1⟩⟩) ++
    if w = 0 then [] else [⟨none, none, ⟨0, 99⟩⟩]

abbrev pairStep (oc : Opclass (Int × Int) Int ExtInt) (maxNodes : Nat) :
    Spill (Fin 2) (Int × Int) Int → SpillAction (Fin 2) → Option (Spill (Fin 2) (Int × Int) Int) :=
  spillStep PairingHeap.list oc pairOverlay 20 (pairSpill maxNodes)

/-- The tuple of a participant becomes node `k` and is linked with the nodes before it, as far
as there are slots: those of the first four are full when node 5 is offered to them. -/
def pairInsert (w : Fin 2) (k : Nat) : List (SpillAction (Fin 2)) :=
  moves (some w) 4 ++ (List.range (min k 4)).map (fun i => .rewire w k i i) ++
    (List.range (min k 4)).map (fun i => if k < 5 then .rewire w i (k - 1) k else .retry w i 4) ++
    (if k = 0 then [.enter w 0] else []) ++ moves (some w) 2

/-- Six nodes in memory. -/
def pairInserts : List (SpillAction (Fin 2)) :=
  pairInsert 0 0 ++ pairInsert 1 1 ++ pairInsert 0 2 ++ pairInsert 1 3 ++ pairInsert 0 4 ++
    pairInsert 1 5

/-- The budget of a serial build that has room for six nodes. -/
def pairBudget : Budget := ⟨1226, 1, 10⟩

/-- The tuples of a serial build, with one edge there and back for each node. -/
def pairScan : List (HeapTuple (Int × Int) × SerialChoice) :=
  (pairTuples 4 (fun n => (n, 0)) 0 ++ pairTuples 4 (fun n => (n, 0)) 1).mapIdx fun k t =>
    (t, ⟨0, 0, if k = 0 then [] else [(k, 0, k - 1), (k - 1, 1, k)], 0⟩)

theorem pairSpill_finishes :
    ∃ s, Runs (pairStep squares 6) (SpillClear squares pairOverlay)
        (.init pairMeta (pairTuples 4 fun n => (n, 0))) s ∧
      (s.parties none).pc = .finished := by
  have hrun : ((exec (fun s a => if SpillClear squares pairOverlay s a then pairStep squares 6 s a
      else none) (.init pairMeta (pairTuples 4 fun n => (n, 0)))
      (pairInserts ++ moves (some 0) 11 ++ moves (some 1) 9 ++ [.adopt] ++ moves none 3)).map
        fun s => decide ((s.parties none).pc = .finished)) = some true := by
    decide +kernel
  obtain ⟨s, hs, hfinished⟩ := Option.map_eq_some_iff.mp hrun
  exact ⟨s, runs_of_exec hs, of_decide_eq_true hfinished⟩

theorem pairScan_finishes :
    ∃ s, serialBuild PairingHeap.list squares 20 (pairSpill 6) pairBudget pairMeta pairScan =
      some s := by
  apply Option.isSome_iff_exists.mp
  decide +kernel

/-- The last vectors find the arena, or the budget, used up. -/
theorem spill_exact_pairs :
    (∃ s : Spill (Fin 2) (Int × Int) Int, s.shared.flushes ≤ 1 ∧
      diskRows s.shared.disk = ∑ w, tupleRows (pairSpill 6) (pairTuples 4 (fun n => (n, 0)) w)) ∧
    ∃ s : SerialBuild (Int × Int) Int, s.flushes = 1 ∧
      diskRows s.disk = tupleRows (pairSpill 6) (pairScan.map Prod.fst) := by
  obtain ⟨s, hs, hfinished⟩ := pairSpill_finishes
  obtain ⟨s', hs'⟩ := pairScan_finishes
  have hexact := spill_exact (W := Fin 2) PairingHeap.list squares pairOverlay 20 (pairSpill 6)
    pairBudget pairMeta
  exact ⟨⟨s, (hexact.2.1 _ s (hs.mono fun _ _ _ => trivial)).2.1, hexact.1 _ s hs hfinished⟩,
    s', hexact.2.2 pairScan s' hs'⟩

/-- Six rows whose coordinates are all `2 ^ 67`, by minus the inner product: all distances are
`-Infinity`. The slots of the first node are full when the sixth is offered to it, and the
index has a row of its whose second coordinate is the number of the sixth. -/
theorem vector_overwritten :
    ∃ s : Spill (Fin 2) (Int × Int) Int,
      Runs (pairStep innerProducts 1000) (fun _ _ => True)
        (.init pairMeta (pairTuples 3 fun _ => (2 ^ 216, 2 ^ 216))) s ∧
      (s.parties none).pc = .finished ∧
      rowOf ⟨0, 1⟩ 0 (2 ^ 216, 5) ∈ diskRows s.shared.disk ∧
      diskRows s.shared.disk ≠
        ∑ w, tupleRows (pairSpill 1000) (pairTuples 3 (fun _ => (2 ^ 216, 2 ^ 216)) w) := by
  have hrun : ((exec (fun s a => if True then pairStep innerProducts 1000 s a else none)
      (.init pairMeta (pairTuples 3 fun _ => (2 ^ 216, 2 ^ 216)))
      (pairInserts ++ moves (some 1) 1 ++ [.adopt] ++ moves none 5)).map fun s =>
        decide ((s.parties none).pc = .finished ∧
          rowOf ⟨0, 1⟩ 0 (2 ^ 216, 5) ∈ diskRows s.shared.disk ∧
          diskRows s.shared.disk ≠ ∑ w, tupleRows (pairSpill 1000)
            (pairTuples 3 (fun _ => (2 ^ 216, 2 ^ 216)) w))) = some true := by
    decide +kernel
  obtain ⟨s, hs, h⟩ := Option.map_eq_some_iff.mp hrun
  exact ⟨s, runs_of_exec hs, of_decide_eq_true h⟩

end PgAcorn.Build
