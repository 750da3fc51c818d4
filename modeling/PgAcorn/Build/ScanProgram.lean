import PgAcorn.Build.Chains

/-! A scan, page access by page access.

The functions of `Scan.Stream` read an index that stays as it is. Here each read of a page under
its buffer lock is one operation, so that inserts and vacuums can go on between two of them. Alone
it is that scan (`scanIndex_finds`). No code cache is attached. -/
namespace PgAcorn.Build
open Library
open PgAcorn.Filter (Fmgr ScanKey Datum)
open PgAcorn.Scan

namespace Concurrent

section
variable {I V Q D : Type} [CDouble D] {H : PairingHeap}

/-- The stream, reading the index as it is. -/
def now (S : Stream V Q D) (s : Disk I V Q) : Stream V Q D := { S with index := s.relation }

/-! ### Greedy descent -/

/-- `acorn_t2_distance`. -/
def t2Distance (S : Stream V Q D) (t : Tid) : Prog (Disk I V Q) D :=
  .read fun s => Scan.t2Distance (now S s) t

/-- `acorn_get_neighbors`. -/
def getNeighbors (S : Stream V Q D) (nbrtid : Tid) (level layer : Nat) :
    Prog (Disk I V Q) (List Tid) :=
  .read fun s => Scan.getNeighbors s.relation nbrtid level layer S.m hnswMaxNeighbors

/-- One neighbor: the cursor moves to it if it is strictly nearer. -/
def descendNeighbor (S : Stream V Q D) (c : Tid × D × Bool) (t : Tid) :
    Prog (Disk I V Q) (Tid × D × Bool) :=
  if !t.isValid then pure c
  else do
    let nd ← t2Distance S t
    pure (if CDouble.lt nd c.2.1 then (t, nd, true) else c)

/-- One pass over the neighbors of the node the cursor is on. -/
def greedyRound (S : Stream V Q D) (lc : Nat) (c : Tid × D) :
    Prog (Disk I V Q) (Tid × D × Bool) := do
  let e ← readElement c.1
  let neighbors ← getNeighbors S e.neighbortid e.level lc
  neighbors.foldlM (descendNeighbor S) (c.1, c.2, false)

/-- Passes on one layer, until the cursor stays. -/
def greedyLayer (S : Stream V Q D) (lc : Nat) : Nat → Tid × D → Prog (Disk I V Q) (Tid × D)
  | 0, _ => .diverge
  | n + 1, c => do
    let c ← greedyRound S lc c
    if c.2.2 then greedyLayer S lc n (c.1, c.2.1) else pure (c.1, c.2.1)

/-- The layers from `lc` down to above `target`. -/
def greedyLayers (S : Stream V Q D) (fuel target : Nat) :
    Nat → Tid × D → Prog (Disk I V Q) (Tid × D)
  | 0, c => pure c
  | lc + 1, c =>
    if lc + 1 > target then do
      let c ← greedyLayer S (lc + 1) fuel c
      greedyLayers S fuel target lc c
    else pure c

/-- `acorn_t2_greedy_descent`. -/
def t2GreedyDescent (S : Stream V Q D) (fuel : Nat) (t : Tid) (startLevel targetLevel : Nat) :
    Prog (Disk I V Q) Tid := do
  let d ← t2Distance S t
  let c ← greedyLayers S fuel targetLevel startLevel (t, d)
  pure c.1

/-! ### Expansion -/

/-- `acorn_t2_load_node`. -/
def t2LoadNode (S : Stream V Q D) (hasNbr : Bool) (t : Tid) : Prog (Disk I V Q) (Discovery D) :=
  .read fun s => Scan.t2LoadNode (now S s) hasNbr t

/-- The level and neighbor tuple of a candidate: carried since its discovery, or read. -/
def candidateNbr (S : Stream V Q D) (ce : Elem D) : Prog (Disk I V Q) (Nat × Tid) :=
  if ce.hasNbr then pure (ce.level, ce.nbrtid)
  else .read fun s => Scan.candidateNbr (now S s) ce

/-- One neighbor in `acorn_t2_stream_expand`. -/
def expandNeighbor (S : Stream V Q D) (st : State H D) (t : Tid) :
    Prog (Disk I V Q) (State H D) :=
  if !t.isValid then pure st
  else
    let seen := visit S st.visited t
    let st := { st with visited := seen.2 }
    if !seen.1 then pure st
    else do
      let d ← t2LoadNode S S.settings.scanSingleRead t
      pure (push S st d)

/-- `acorn_t2_stream_expand`. -/
def t2StreamExpand (S : Stream V Q D) (st : State H D) (ce : Elem D) :
    Prog (Disk I V Q) (State H D) := do
  let nbr ← candidateNbr S ce
  let neighbors ← getNeighbors S nbr.2 nbr.1 0
  neighbors.foldlM (expandNeighbor S) st

/-- The layer-0 slots and the primary chunk, copied under one lock. -/
def readSlots (S : Stream V Q D) (nbrtid : Tid) :
    Prog (Disk I V Q) (List Tid × InlineChunk Q) :=
  .read fun s => do
    let ntup ← s.relation.neighbor nbrtid
    let level := t2LevelFromCount ntup.count S.m S.payloadM
    let tids ← slotRange ntup.tids (hnswNeighborStart S.m level 0) (t2L0Width S.m S.payloadM)
    let chunk ← ntup.inline?
    some (tids, chunk)

/-- The continuation tuples, from `next` on. -/
def walkChain (tids : List Tid) : Nat → Tid → Walk Q → Prog (Disk I V Q) (Walk Q)
  | 0, _, _ => .diverge
  | fuel + 1, next, w =>
    if !next.isValid then pure w
    else do
      let x ← Prog.read fun s : Disk I V Q => s.relation.item next
      match x with
      | .cont chunk => walkChain tids fuel chunk.next (walkChunk tids w chunk)
      | _ => pure w

/-- Resolves a stale slot by its element page and queues the neighbor. -/
def pushCand (S : Stream V Q D) (st : State H D) (c : Tid × Option (InlineEntry Q)) :
    Prog (Disk I V Q) (State H D) :=
  match c.2 with
  | some e => pure (push S st (Discovery.ofEntry S e))
  | none => do
    let d ← t2LoadNode S true c.1
    pure (push S st d)

/-- `acorn_t2_stream_expand_inline`. -/
def t2StreamExpandInline (S : Stream V Q D) (fuel : Nat) (st : State H D) (ce : Elem D) :
    Prog (Disk I V Q) (State H D) := do
  let nbr ← candidateNbr S ce
  let slots ← readSlots S nbr.2
  let w ← walkChain slots.1 fuel slots.2.next (walkChunk slots.1 ⟨st.visited, [], []⟩ slots.2)
  let w := walkRest slots.1 w
  w.cands.foldlM (pushCand S) { st with visited := w.visited }

/-- The expansion routine the scan uses. -/
def expand (S : Stream V Q D) (fuel : Nat) (st : State H D) (ce : Elem D) :
    Prog (Disk I V Q) (State H D) :=
  if S.inlineOn then t2StreamExpandInline S fuel st ce else t2StreamExpand S st ce

/-- One expansion. -/
def expandOne (S : Stream V Q D) (fuel : Nat) (st : State H D) : Prog (Disk I V Q) (State H D) :=
  match popCandidate S st with
  | none => .diverge
  | some popped => do
    let st ← expand S fuel popped.2 popped.1
    pure { st with
      nExpansions := st.nExpansions + 1, expanded := popped.1.indextid :: st.expanded }

/-! ### The loop of `acorn_t2_stream_next` -/

/-- `acorn_t2_rerank_one`. -/
def t2RerankOne (S : Stream V Q D) (st : State H D) : Prog (Disk I V Q) (State H D) :=
  match H.removeFirst st.R with
  | none => .diverge
  | some popped => do
    let node ← t2LoadNode S true popped.1.indextid
    if node.deleted then pure { st with R := popped.2 }
    else pure { st with
      R := popped.2
      Rx := H.add st.Rx { popped.1 with distance := node.distance, heaptid := node.heaptid }
      rxCount := st.rxCount + 1 }

/-- An element is taken from the results, or there is none. -/
def emission (S : Stream V Q D) (st : State H D) : Scan.Outcome × State H D :=
  if S.approx then
    match H.removeFirst st.Rx with
    | none => (.finish, { st with exhausted := true })
    | some popped => (.emit popped.1.heaptid, { st with Rx := popped.2, rxCount := st.rxCount - 1 })
  else match H.removeFirst st.R with
    | none => (.finish, { st with exhausted := true })
    | some popped => (.emit popped.1.heaptid, { st with R := popped.2 })

/-- One iteration. -/
def iterate (S : Stream V Q D) (fuel : Nat) (st : State H D) :
    Prog (Disk I V Q) (Scan.Outcome × State H D) :=
  if expansionGate S st then do
    let st ← expandOne S fuel st
    pure (.continue, st)
  else if S.approx && rerankGate S st then do
    let st ← t2RerankOne S st
    pure (.continue, st)
  else pure (emission S st)

/-- The loop. -/
def nextLoop (S : Stream V Q D) (fuel : Nat) :
    Nat → State H D → Prog (Disk I V Q) (Option Tid × State H D)
  | 0, _ => .diverge
  | n + 1, st => do
    let r ← iterate S fuel st
    match r.1 with
    | .continue => nextLoop S fuel n r.2
    | .emit t => pure (some t, r.2)
    | .finish => pure (none, r.2)

/-- `acorn_t2_stream_next`. -/
def t2StreamNext (S : Stream V Q D) (fuel : Nat) (st : State H D) :
    Prog (Disk I V Q) (Option Tid × State H D) :=
  if st.exhausted then pure (none, st) else nextLoop S fuel fuel st

/-- Calls `acorn_t2_stream_next` until it returns `false`. -/
def drain (S : Stream V Q D) (fuel : Nat) : Nat → State H D → Prog (Disk I V Q) (List Tid)
  | 0, _ => .diverge
  | n + 1, st => do
    let r ← t2StreamNext S fuel st
    match r.1 with
    | some t => do
      let ts ← drain S fuel n r.2
      pure (t :: ts)
    | none => pure []

/-- A scan: its settings, its keys and its query. -/
structure Query (V Q D : Type) where
  settings : Settings
  fmgr : Fmgr
  kernels : Kernels V Q D
  keys : List ScanKey
  efSearch : Nat

/-- What the scan of an index fixes at its beginning. -/
def Query.stream (q : Query V Q D) (r : Relation V Q) : Stream V Q D :=
  Stream.ofIndex q.settings q.fmgr q.kernels none r q.keys q.efSearch

/-- The same from the meta page. -/
def Query.ofMeta (q : Query V Q D) (p : MetaPage) : Stream V Q D := q.stream ⟨p, []⟩

/-- The base-layer entry point. -/
def baseEntry (S : Stream V Q D) (fuel : Nat) (p : MetaPage) : Prog (Disk I V Q) Tid :=
  if p.entryLevel > 0 then t2GreedyDescent S fuel p.entry p.entryLevel.toNat 0 else pure p.entry

/-- The frontier at the base-layer entry point. -/
def seed (S : Stream V Q D) (entry : Tid) : Prog (Disk I V Q) (State H D) := do
  let d ← t2LoadNode S (S.settings.scanSingleRead || S.approx) entry
  pure (push S { State.empty with visited := markVisited [] entry } d)

/-- `acorn_t2_stream_begin`. -/
def t2StreamBegin (S : Stream V Q D) (fuel : Nat) (p : MetaPage) :
    Prog (Disk I V Q) (State H D) :=
  if !p.hasEntry then pure { State.empty with exhausted := true }
  else do
    let base ← baseEntry S fuel p
    seed S base

/-- A scan to its end. -/
def scanIndex (H : PairingHeap) (q : Query V Q D) (fuel : Nat) :
    Prog (Disk I V Q) (List Tid) := do
  let p ← Prog.read fun s : Disk I V Q => some s.relation.metaPage
  let st ← t2StreamBegin (H := H) (q.ofMeta p) fuel p
  drain (q.ofMeta p) fuel fuel st

end

/-! ### Alone -/

section
variable {I V Q D : Type} [CDouble D] {H : PairingHeap} {S : Stream V Q D} {s : Disk I V Q}

omit [CDouble D] in
theorem t2Distance_finds (t : Tid) :
    Prog.Finds (t2Distance S t) s (Scan.t2Distance (now S s) t) := .read rfl

omit [CDouble D] in
theorem getNeighbors_finds (nbrtid : Tid) (level layer : Nat) :
    Prog.Finds (getNeighbors S nbrtid level layer) s
      (Scan.getNeighbors s.relation nbrtid level layer S.m hnswMaxNeighbors) := .read rfl

omit [CDouble D] in
theorem t2LoadNode_finds (hasNbr : Bool) (t : Tid) :
    Prog.Finds (t2LoadNode S hasNbr t) s (Scan.t2LoadNode (now S s) hasNbr t) := .read rfl

theorem greedyRound_finds (lc : Nat) (c : Tid × D) :
    Prog.Finds (greedyRound S lc c) s (Scan.greedyRound (now S s) lc c) := by
  refine Prog.Finds.bind (.read rfl) fun e => (getNeighbors_finds _ _ _).bind fun neighbors => ?_
  refine .foldlM (fun c t => ?_) neighbors _
  unfold descendNeighbor Scan.descendNeighbor
  split
  · exact .pure c
  · exact (t2Distance_finds t).map _

theorem greedyLayer_finds (lc fuel : Nat) (c : Tid × D) :
    Prog.Finds (greedyLayer S lc fuel c) s (Scan.greedyLayer (now S s) lc fuel c) := by
  induction fuel generalizing c with
  | zero => rfl
  | succ fuel ih =>
    rw [Scan.greedyLayer]
    refine (greedyRound_finds lc c).bind_cases (fun hnone => by rw [hnone]) fun c' hc => ?_
    rw [hc]
    obtain ⟨t, d, moved⟩ := c'
    cases moved with
    | true => exact ih (t, d)
    | false => exact .pure (t, d)

theorem greedyLayers_finds (fuel target lc : Nat) (c : Tid × D) :
    Prog.Finds (greedyLayers S fuel target lc c) s
      (Scan.greedyLayers (now S s) fuel target lc c) := by
  induction lc generalizing c with
  | zero => exact .pure c
  | succ lc ih =>
    unfold greedyLayers Scan.greedyLayers
    split
    · exact (greedyLayer_finds (lc + 1) fuel c).bind fun c' => ih c'
    · exact .pure c

theorem t2GreedyDescent_finds (fuel : Nat) (t : Tid) (startLevel targetLevel : Nat) :
    Prog.Finds (t2GreedyDescent S fuel t startLevel targetLevel) s
      (Scan.t2GreedyDescent (now S s) fuel t startLevel targetLevel) :=
  (t2Distance_finds t).bind fun _ => (greedyLayers_finds fuel targetLevel startLevel _).bind
    fun c => .pure c.1

omit [CDouble D] in
theorem candidateNbr_finds (ce : Elem D) :
    Prog.Finds (candidateNbr S ce) s (Scan.candidateNbr (now S s) ce) := by
  unfold candidateNbr
  split
  · rename_i hnbr
    rw [Scan.candidateNbr, if_pos hnbr]
    exact .pure _
  · exact .read rfl

/-- Without a code cache. -/
theorem t2StreamExpand_finds (hcc : S.cc = none) (st : State H D) (ce : Elem D) :
    Prog.Finds (t2StreamExpand S st ce) s (Scan.t2StreamExpand (now S s) st ce) := by
  refine (candidateNbr_finds ce).bind fun nbr => (getNeighbors_finds _ _ _).bind fun neighbors => ?_
  refine .foldlM (fun st t => ?_) neighbors _
  have hnone : ((now S s).cc.bind fun cc => cc t) = none := by
    show (S.cc.bind fun cc => cc t) = none
    rw [hcc]
    rfl
  unfold expandNeighbor Scan.expandNeighbor
  split
  · exact .pure st
  dsimp only
  split
  · rename_i hseen
    rw [if_pos (show (!(visit (now S s) st.visited t).1) = true from hseen)]
    exact .pure _
  · rename_i hseen
    rw [if_neg (show ¬(!(visit (now S s) st.visited t).1) = true from hseen), hnone]
    exact (t2LoadNode_finds _ t).map _

omit [CDouble D] in
theorem walkChain_finds (tids : List Tid) (fuel : Nat) (next : Tid) (w : Walk Q) :
    Prog.Finds (walkChain tids fuel next w) s (Scan.walkChain (now S s) tids fuel next w) := by
  induction fuel generalizing next w with
  | zero => rfl
  | succ fuel ih =>
    unfold walkChain Scan.walkChain
    split
    · exact .pure w
    have hread : Prog.Finds (Prog.read fun s : Disk I V Q => s.relation.item next) s
        ((now S s).index.item next) := .read rfl
    refine hread.bind_cases (fun hnone => by rw [hnone]) fun x hx => ?_
    rw [hx]
    cases x with
    | cont chunk => exact ih chunk.next _
    | element e => exact .pure w
    | neighbor n => exact .pure w

theorem pushCand_finds (st : State H D) (c : Tid × Option (InlineEntry Q)) :
    Prog.Finds (pushCand S st c) s (Scan.pushCand (now S s) st c) := by
  obtain ⟨t, oe⟩ := c
  cases oe with
  | some e => exact .pure _
  | none => exact (t2LoadNode_finds true t).map _

theorem t2StreamExpandInline_finds (fuel : Nat) (st : State H D) (ce : Elem D) :
    Prog.Finds (t2StreamExpandInline S fuel st ce) s
      (Scan.t2StreamExpandInline (now S s) fuel st ce) := by
  refine (candidateNbr_finds ce).bind fun nbr => ?_
  have hslots : Prog.Finds (readSlots S nbr.2) s _ := .read rfl
  have h := hslots.bind fun slots => (walkChain_finds (S := S) slots.1 fuel slots.2.next
    (walkChunk slots.1 ⟨st.visited, [], []⟩ slots.2)).bind fun w =>
      Prog.Finds.foldlM (fun (st : State H D) c => pushCand_finds (S := S) st c)
        (walkRest slots.1 w).cands { st with visited := (walkRest slots.1 w).visited }
  simp only [Option.bind_eq_bind, Option.bind_assoc, Option.bind_some] at h
  exact h

theorem expand_finds (hcc : S.cc = none) (fuel : Nat) (st : State H D) (ce : Elem D) :
    Prog.Finds (expand S fuel st ce) s (Scan.expand (now S s) fuel st ce) := by
  unfold expand Scan.expand
  cases hon : S.inlineOn with
  | true =>
    rw [if_pos rfl, if_pos (show (now S s).inlineOn = true from hon)]
    exact t2StreamExpandInline_finds fuel st ce
  | false =>
    rw [if_neg (by simp), if_neg (by rw [show (now S s).inlineOn = false from hon]; simp)]
    exact t2StreamExpand_finds hcc st ce

theorem expandOne_finds (hcc : S.cc = none) (fuel : Nat) (st : State H D) :
    Prog.Finds (expandOne S fuel st) s (Scan.expandOne (now S s) fuel st) := by
  have hpop : popCandidate (now S s) st = popCandidate S st := rfl
  unfold expandOne Scan.expandOne
  rw [hpop]
  cases popCandidate S st with
  | none => rfl
  | some popped => exact (expand_finds hcc fuel popped.2 popped.1).bind fun st => .pure _

theorem t2RerankOne_finds (st : State H D) :
    Prog.Finds (t2RerankOne S st) s (Scan.t2RerankOne (now S s) st) := by
  unfold t2RerankOne Scan.t2RerankOne
  cases H.removeFirst st.R with
  | none => rfl
  | some popped =>
    refine (t2LoadNode_finds true popped.1.indextid).bind fun node => ?_
    split
    · exact .pure _
    · exact .pure _

theorem iterate_finds (hcc : S.cc = none) (fuel : Nat) (st : State H D) :
    Prog.Finds (iterate S fuel st) s (Scan.iterate (now S s) fuel st) := by
  have hgate : expansionGate (now S s) st = expansionGate S st := rfl
  have hrerank : rerankGate (now S s) st = rerankGate S st := rfl
  have happrox : (now S s).approx = S.approx := rfl
  unfold iterate Scan.iterate
  rw [hgate, hrerank, happrox]
  split
  · exact (expandOne_finds hcc fuel st).map _
  cases happ : S.approx with
  | true =>
    cases rerankGate S st with
    | true => exact (t2RerankOne_finds st).map _
    | false =>
      unfold emission
      rw [happ]
      cases H.removeFirst st.Rx with
      | none => rfl
      | some popped => rfl
  | false =>
    unfold emission
    rw [happ]
    cases H.removeFirst st.R with
    | none => rfl
    | some popped => rfl

theorem nextLoop_finds (hcc : S.cc = none) (fuel n : Nat) (st : State H D) :
    Prog.Finds (nextLoop S fuel n st) s (Scan.nextLoop (now S s) fuel n st) := by
  induction n generalizing st with
  | zero => rfl
  | succ n ih =>
    rw [Scan.nextLoop]
    refine (iterate_finds hcc fuel st).bind_cases (fun hnone => by rw [hnone]) fun r hr => ?_
    rw [hr]
    obtain ⟨outcome, st'⟩ := r
    cases outcome with
    | «continue» => exact ih st'
    | emit t => exact .pure (some t, st')
    | finish => exact .pure (none, st')

theorem t2StreamNext_finds (hcc : S.cc = none) (fuel : Nat) (st : State H D) :
    Prog.Finds (t2StreamNext S fuel st) s (Scan.t2StreamNext (now S s) fuel st) := by
  unfold t2StreamNext Scan.t2StreamNext
  split
  · exact .pure _
  · exact nextLoop_finds hcc fuel fuel st

theorem drain_finds (hcc : S.cc = none) (fuel n : Nat) (st : State H D) :
    Prog.Finds (drain S fuel n st) s ((Scan.drain (now S s) fuel n st).map Prod.fst) := by
  induction n generalizing st with
  | zero => rfl
  | succ n ih =>
    rw [Scan.drain]
    refine (t2StreamNext_finds hcc fuel st).bind_cases (fun hnone => by rw [hnone]; rfl)
      fun r hr => ?_
    rw [hr]
    obtain ⟨row, st'⟩ := r
    cases row with
    | none => exact .pure []
    | some t =>
      have hrows := (ih st').map (t :: ·)
      rw [Option.map_map] at hrows ⊢
      exact hrows

theorem t2StreamBegin_finds (fuel : Nat) :
    Prog.Finds (t2StreamBegin (H := H) S fuel s.relation.metaPage) s
      (Scan.t2StreamBegin (now S s) fuel) := by
  have hindex : (now S s).index = s.relation := rfl
  unfold t2StreamBegin Scan.t2StreamBegin
  rw [hindex]
  split
  · exact .pure _
  have hbase : Prog.Finds (baseEntry S fuel s.relation.metaPage) s
      (Scan.baseEntry (now S s) fuel) := by
    unfold baseEntry Scan.baseEntry
    rw [hindex]
    split
    · exact t2GreedyDescent_finds _ _ _ _
    · exact .pure _
  exact hbase.bind fun base => (t2LoadNode_finds _ base).map _

/-- **A scan alone returns the rows of the index as it is.** -/
theorem scanIndex_finds (q : Query V Q D) (fuel : Nat) :
    Prog.Finds (scanIndex H q fuel) s
      ((Scan.t2StreamBegin (q.stream s.relation) fuel).bind fun st : State H D =>
        (Scan.drain (q.stream s.relation) fuel fuel st).map Prod.fst) := by
  have hcc : (q.ofMeta s.relation.metaPage).cc = none := by
    unfold Query.ofMeta Query.stream Stream.ofIndex
    dsimp only
    split <;> rfl
  have h := (t2StreamBegin_finds (H := H) (s := s) (S := q.ofMeta s.relation.metaPage) fuel).bind
    fun st => drain_finds hcc fuel fuel st
  exact (Prog.exec_bind _ _ s).trans h

end

end Concurrent

end PgAcorn.Build
