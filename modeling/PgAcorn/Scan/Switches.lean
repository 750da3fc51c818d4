import PgAcorn.Scan.Descent

/-! The switches of the scan's fast paths change no row.

They decide whether a candidate carries the level and the neighbor tuple its page told when it
was discovered or has the page read again when it is expanded, whether one probe or two ask
and enter the visited set, whether int4 keys are compared in place, and whether the pages of
unvisited neighbors are requested before they are read. A candidate that carries nothing stands
for one that carries what the second read will tell: `resolve` gives it that, the heaps do not
see the difference, and every operation of the scan commutes with it (`calls_resolved`). The
requests are a record that nothing reads (`prefetchCalls_state`). -/
namespace PgAcorn.Scan
open Library
open PgAcorn.Filter (Datum)

/-- `pg_acorn.scan_single_read`, `scan_visited_oneprobe`, `scan_direct_filter` and
`scan_prefetch`. -/
structure Switches where
  scanSingleRead : Bool
  scanVisitedOneprobe : Bool
  scanDirectFilter : Bool
  scanPrefetch : Bool

variable {V Q D : Type}

/-- The scan under other switches. -/
def Stream.switched (S : Stream V Q D) (w : Switches) : Stream V Q D :=
  { S with settings := { S.settings with
      scanSingleRead := w.scanSingleRead
      scanVisitedOneprobe := w.scanVisitedOneprobe
      scanDirectFilter := w.scanDirectFilter } }

variable [CDouble D] {H : PairingHeap}

/-! ### Requests ahead -/

/-- The distinct pages of the neighbors that are valid and not visited, as `seen` collects
them. -/
def prefetchBlocks (visited neighbors : List Tid) : List Nat :=
  neighbors.foldl (fun seen t =>
    if !t.isValid then seen
    else if t ∈ visited then seen
    else if t.blkno ∈ seen then seen
    else seen ++ [t.blkno]) []

/-- A scan with the pages it has requested. -/
structure Prefetching (H : PairingHeap) (D : Type) [CDouble D] where
  state : State H D
  requested : List Nat

variable (S : Stream V Q D) (scanPrefetch : Bool) (fuel : Nat)

/-- `expand`, with the prefetch pass of `acorn_t2_stream_expand`. -/
def prefetchExpand (p : Prefetching H D) (ce : Elem D) : Option (Prefetching H D) :=
  if S.inlineOn then (t2StreamExpandInline S fuel p.state ce).map fun s => { p with state := s }
  else do
    let (level, nbrtid) ← candidateNbr S ce
    let neighbors ← getNeighbors S.index nbrtid level 0 S.m hnswMaxNeighbors
    let blocks := if scanPrefetch then prefetchBlocks p.state.visited neighbors else []
    let s ← neighbors.foldlM (expandNeighbor S) p.state
    some ⟨s, p.requested ++ blocks⟩

/-- `expandOne`, with requests. -/
def prefetchExpandOne (p : Prefetching H D) : Option (Prefetching H D) := do
  let (ce, s) ← popCandidate S p.state
  let p ← prefetchExpand S scanPrefetch fuel { p with state := s } ce
  some { p with state := { p.state with
    nExpansions := p.state.nExpansions + 1, expanded := ce.indextid :: p.state.expanded } }

/-- `iterate`, with requests. -/
def prefetchIterate (p : Prefetching H D) : Option (Outcome × Prefetching H D) :=
  if expansionGate S p.state then
    (prefetchExpandOne S scanPrefetch fuel p).map fun p => (.continue, p)
  else (iterate S fuel p.state).map fun r => (r.1, { p with state := r.2 })

/-- `nextLoop`, with requests. -/
def prefetchNextLoop : Nat → Prefetching H D → Option (Option Tid × Prefetching H D)
  | 0, _ => none
  | n + 1, p =>
    match prefetchIterate S scanPrefetch fuel p with
    | some (.continue, p) => prefetchNextLoop n p
    | some (.emit t, p) => some (some t, p)
    | some (.finish, p) => some (none, p)
    | none => none

/-- `acorn_t2_stream_next`, with requests. -/
def prefetchNext (p : Prefetching H D) : Option (Option Tid × Prefetching H D) :=
  if p.state.exhausted then some (none, p) else prefetchNextLoop S scanPrefetch fuel fuel p

/-- `k` successive calls of `acorn_t2_stream_next` and the rows they return, with requests. -/
def prefetchCalls : Nat → Prefetching H D → Option (List Tid × Prefetching H D)
  | 0, p => some ([], p)
  | k + 1, p =>
    match prefetchNext S scanPrefetch fuel p with
    | some (some t, p) => (prefetchCalls k p).map fun r => (t :: r.1, r.2)
    | some (none, p) => prefetchCalls k p
    | none => none

/-- The rows of the first `k` calls of a scan. -/
def scanRows (H : PairingHeap) (k : Nat) : Option (List Tid) :=
  (t2StreamBegin S fuel : Option (State H D)).bind fun s =>
    (prefetchCalls S scanPrefetch fuel k ⟨s, []⟩).map Prod.fst

section
variable {S fuel}

theorem prefetchExpand_state (p : Prefetching H D) (ce : Elem D) :
    (prefetchExpand S scanPrefetch fuel p ce).map Prefetching.state = expand S fuel p.state ce := by
  unfold prefetchExpand expand
  split
  · cases t2StreamExpandInline S fuel p.state ce <;> rfl
  · unfold t2StreamExpand
    cases candidateNbr S ce with
    | none => rfl
    | some nbr =>
      simp only [Option.bind_eq_bind, Option.bind_some]
      cases getNeighbors S.index nbr.2 nbr.1 0 S.m hnswMaxNeighbors with
      | none => rfl
      | some neighbors =>
        simp only [Option.bind_some]
        cases neighbors.foldlM (expandNeighbor S) p.state <;> rfl

theorem prefetchExpandOne_state (p : Prefetching H D) :
    (prefetchExpandOne S scanPrefetch fuel p).map Prefetching.state = expandOne S fuel p.state := by
  unfold prefetchExpandOne expandOne
  cases popCandidate S p.state with
  | none => rfl
  | some popped =>
    simp only [Option.bind_eq_bind, Option.bind_some]
    rw [← prefetchExpand_state scanPrefetch { p with state := popped.2 }]
    cases prefetchExpand S scanPrefetch fuel { p with state := popped.2 } popped.1 <;> rfl

theorem prefetchIterate_state (p : Prefetching H D) :
    (prefetchIterate S scanPrefetch fuel p).map (fun r => (r.1, r.2.state)) =
      iterate S fuel p.state := by
  unfold prefetchIterate
  split
  · rename_i hgate
    rw [iterate, if_pos hgate, ← prefetchExpandOne_state scanPrefetch p,
      Option.map_map, Option.map_map]
    rfl
  · cases iterate S fuel p.state <;> rfl

theorem prefetchNextLoop_state (n : Nat) (p : Prefetching H D) :
    (prefetchNextLoop S scanPrefetch fuel n p).map (fun r => (r.1, r.2.state)) =
      nextLoop S fuel n p.state := by
  induction n generalizing p with
  | zero => rfl
  | succ n ih =>
    rw [prefetchNextLoop, nextLoop, ← prefetchIterate_state scanPrefetch]
    cases prefetchIterate S scanPrefetch fuel p with
    | none => rfl
    | some r =>
      obtain ⟨o, p⟩ := r
      cases o with
      | «continue» => exact ih p
      | emit t => rfl
      | finish => rfl

theorem prefetchNext_state (p : Prefetching H D) :
    (prefetchNext S scanPrefetch fuel p).map (fun r => (r.1, r.2.state)) =
      t2StreamNext S fuel p.state := by
  unfold prefetchNext t2StreamNext
  split
  · rfl
  · exact prefetchNextLoop_state scanPrefetch fuel p

/-- **Requests are only a record**: without them the scan does the same. -/
theorem prefetchCalls_state (k : Nat) (p : Prefetching H D) :
    (prefetchCalls S scanPrefetch fuel k p).map (fun r => (r.1, r.2.state)) =
      calls S fuel k p.state := by
  induction k generalizing p with
  | zero => rfl
  | succ k ih =>
    rw [prefetchCalls, calls, ← prefetchNext_state scanPrefetch]
    cases prefetchNext S scanPrefetch fuel p with
    | none => rfl
    | some r =>
      obtain ⟨t, p⟩ := r
      cases t with
      | none => exact ih p
      | some t =>
        show ((prefetchCalls S scanPrefetch fuel k p).map _).map _ = (calls S fuel k p.state).map _
        rw [← ih p, Option.map_map, Option.map_map]
        rfl

end

/-! ### Pending reads -/

/-- A candidate with what reading its page again would tell. -/
def resolve (S : Stream V Q D) (c : Elem D) : Elem D :=
  if c.hasNbr then c
  else match S.index.element c.indextid with
    | some e => { c with nbrtid := e.neighbortid, level := e.level, hasNbr := true }
    | none => c

section
variable (S : Stream V Q D)

omit [CDouble D] in
theorem resolve_distance (c : Elem D) : (resolve S c).distance = c.distance := by
  unfold resolve
  split
  · rfl
  · split <;> rfl

omit [CDouble D] in
theorem resolve_lb (c : Elem D) : (resolve S c).lb = c.lb := by
  unfold resolve
  split
  · rfl
  · split <;> rfl

omit [CDouble D] in
theorem resolve_indextid (c : Elem D) : (resolve S c).indextid = c.indextid := by
  unfold resolve
  split
  · rfl
  · split <;> rfl

/-- The heaps do not see a pending read. -/
theorem resolve_preserves : Preserves (pqCmpMin (D := D)) pqCmpMin (resolve S) := by
  intro a b
  simp only [pqCmpMin, resolve_distance]

/-- The state in which no candidate has a read pending. -/
def State.resolved (s : State H D) : State H D :=
  { s with
    C := H.map (resolve S) (resolve_preserves S) s.C
    Cm := H.map (resolve S) (resolve_preserves S) s.Cm }

/-- The scan whose candidates carry what was read. -/
def Stream.carrying : Stream V Q D := S.switched ⟨true, true, true, true⟩

theorem first_resolved (h : H.Heap (pqCmpMin (D := D))) :
    H.first (H.map (resolve S) (resolve_preserves S) h) = (H.first h).map (resolve S) := by
  rw [PairingHeap.first, PairingHeap.first, H.map_removeFirst, Option.map_map, Option.map_map]
  rfl

theorem isEmpty_resolved (h : H.Heap (pqCmpMin (D := D))) :
    H.isEmpty (H.map (resolve S) (resolve_preserves S) h) = H.isEmpty h := by
  rw [PairingHeap.isEmpty, PairingHeap.isEmpty, H.map_removeFirst, Option.isNone_map]

theorem headDistance_resolved (h : H.Heap (pqCmpMin (D := D))) :
    headDistance (H.map (resolve S) (resolve_preserves S) h) = headDistance h := by
  rw [headDistance, headDistance, first_resolved]
  cases H.first h with
  | none => rfl
  | some c => exact resolve_distance S c

theorem headLb_resolved (h : H.Heap (pqCmpMin (D := D))) :
    headLb (H.map (resolve S) (resolve_preserves S) h) = headLb h := by
  rw [headLb, headLb, first_resolved]
  cases H.first h with
  | none => rfl
  | some c => exact resolve_lb S c

end

section
variable {S : Stream V Q D} (w : Switches)

/-! ### One expansion -/

omit [CDouble D] in
/-- Reading again tells what was carried. -/
theorem candidateNbr_resolve (c : Elem D) :
    candidateNbr S.carrying (resolve S c) = candidateNbr (S.switched w) c := by
  show candidateNbr S (resolve S c) = candidateNbr S c
  unfold resolve
  split
  · rfl
  · rename_i hnone
    have hc : candidateNbr S c = (S.index.element c.indextid).map fun e => (e.level, e.neighbortid) :=
      if_neg hnone
    rw [hc]
    cases he : S.index.element c.indextid with
    | none =>
      dsimp only
      rw [hc, he]
    | some e => rfl

theorem popCandidate_resolved (s : State H D) :
    popCandidate S.carrying (s.resolved S) =
      (popCandidate (S.switched w) s).map fun p => (resolve S p.1, p.2.resolved S) := by
  have hchooses : choosesCm S.carrying (s.resolved S) = choosesCm (S.switched w) s := by
    unfold choosesCm State.resolved
    simp only [isEmpty_resolved, headDistance_resolved]
    rfl
  unfold popCandidate
  rw [hchooses]
  split
  · show ((H.removeFirst (H.map _ _ s.Cm)).map _) = _
    rw [H.map_removeFirst]
    cases H.removeFirst s.Cm <;> rfl
  · show ((H.removeFirst (H.map _ _ s.C)).map _) = _
    rw [H.map_removeFirst]
    cases H.removeFirst s.C <;> rfl

omit [CDouble D] in
theorem passes_switched {d d' : Discovery D} (hdeleted : d'.deleted = d.deleted)
    (hvalue : d'.filterVal = d.filterVal) : passes S.carrying d' = passes (S.switched w) d := by
  unfold passes
  rw [hdeleted, hvalue]
  exact congrArg _ (Filter.evalFilter_direct _ _ _ _ _)

/-- Queueing a discovery, with or without what was read. -/
theorem push_resolved (s : State H D) {d d' : Discovery D} (hcand : d'.candidate = resolve S d.candidate)
    (hresult : d'.result = d.result) (hdeleted : d'.deleted = d.deleted)
    (hvalue : d'.filterVal = d.filterVal) :
    push S.carrying (s.resolved S) d' = (push (S.switched w) s d).resolved S := by
  have hmember : S.carrying.settings.memberFirst = (S.switched w).settings.memberFirst := rfl
  have hC : ∀ h : H.Heap (pqCmpMin (D := D)), H.add (H.map (resolve S) (resolve_preserves S) h)
      d'.candidate = H.map (resolve S) (resolve_preserves S) (H.add h d.candidate) := by
    intro h
    rw [hcand, H.map_add]
  unfold push
  rw [passes_switched w hdeleted hvalue, hmember, hresult]
  unfold State.resolved
  dsimp only
  rw [hC, hC]
  split <;> split <;> rfl

/-- A page tells the same with and without keeping it for later. -/
theorem push_loadNode_resolved (s : State H D) (hasNbr : Bool) (t : Tid) :
    (t2LoadNode S.carrying true t).map (push S.carrying (s.resolved S)) =
      ((t2LoadNode (S.switched w) hasNbr t).map (push (S.switched w) s)).map (State.resolved S) := by
  show ((S.index.element t).map _).map _ = (((S.index.element t).map _).map _).map _
  cases he : S.index.element t with
  | none => rfl
  | some e =>
    refine congrArg some (push_resolved w s ?_ rfl rfl rfl)
    cases hasNbr with
    | true => rfl
    | false =>
      show _ = resolve S ⟨t, Tid.invalid, _, _, _, _, false⟩
      rw [resolve, if_neg (by simp), he]
      rfl

theorem expandNeighbor_resolved (s : State H D) (t : Tid) :
    expandNeighbor S.carrying (s.resolved S) t =
      (expandNeighbor (S.switched w) s t).map (State.resolved S) := by
  have hvisited : (s.resolved S).visited = s.visited := rfl
  unfold expandNeighbor
  rw [visit_eq, visit_eq, hvisited]
  split
  · rfl
  · dsimp only
    split
    · rfl
    · have hcc : (S.carrying.cc.bind fun cc => cc t) = (S.switched w).cc.bind fun cc => cc t := rfl
      rw [hcc]
      cases (S.switched w).cc.bind fun cc => cc t with
      | some hit =>
        exact congrArg some (push_resolved w { s with visited := markVisited s.visited t }
          (d := Discovery.ofHit S t hit) rfl rfl rfl rfl)
      | none => exact push_loadNode_resolved w { s with visited := markVisited s.visited t } _ t

theorem pushCand_resolved (s : State H D) (c : Tid × Option (InlineEntry Q)) :
    pushCand S.carrying (s.resolved S) c = (pushCand (S.switched w) s c).map (State.resolved S) := by
  obtain ⟨t, e⟩ := c
  cases e with
  | some e =>
    exact congrArg some (push_resolved w s (d := Discovery.ofEntry S e) rfl rfl rfl rfl)
  | none => exact push_loadNode_resolved w s true t

/-- A loop whose steps commute with a map of the states. -/
theorem foldlM_map {α β : Type} {f : α → α} {g g' : α → β → Option α}
    (h : ∀ a b, g' (f a) b = (g a b).map f) (l : List β) (a : α) :
    l.foldlM g' (f a) = (l.foldlM g a).map f := by
  induction l generalizing a with
  | nil => rfl
  | cons b l ih =>
    rw [List.foldlM_cons, List.foldlM_cons, h]
    cases g a b with
    | none => rfl
    | some a => exact ih a

theorem t2StreamExpand_resolved (s : State H D) (c : Elem D) :
    t2StreamExpand S.carrying (s.resolved S) (resolve S c) =
      (t2StreamExpand (S.switched w) s c).map (State.resolved S) := by
  unfold t2StreamExpand
  rw [candidateNbr_resolve w]
  cases candidateNbr (S.switched w) c with
  | none => rfl
  | some nbr =>
    show ((getNeighbors S.index nbr.2 nbr.1 0 S.m hnswMaxNeighbors).bind _) =
      ((getNeighbors S.index nbr.2 nbr.1 0 S.m hnswMaxNeighbors).bind _).map _
    cases getNeighbors S.index nbr.2 nbr.1 0 S.m hnswMaxNeighbors with
    | none => rfl
    | some neighbors => exact foldlM_map (expandNeighbor_resolved w) neighbors s

omit [CDouble D] in
theorem walkChain_switched (tids : List Tid) (fuel : Nat) (next : Tid) (walk : Walk Q) :
    walkChain S.carrying tids fuel next walk = walkChain (S.switched w) tids fuel next walk := by
  induction fuel generalizing next walk with
  | zero => rfl
  | succ fuel ih =>
    have hitem : S.carrying.index.item next = (S.switched w).index.item next := rfl
    rw [walkChain, walkChain, hitem]
    simp only [ih]

theorem t2StreamExpandInline_resolved (fuel : Nat) (s : State H D) (c : Elem D) :
    t2StreamExpandInline S.carrying fuel (s.resolved S) (resolve S c) =
      (t2StreamExpandInline (S.switched w) fuel s c).map (State.resolved S) := by
  unfold t2StreamExpandInline
  rw [candidateNbr_resolve w]
  cases candidateNbr (S.switched w) c with
  | none => rfl
  | some nbr =>
    show ((S.index.neighbor nbr.2).bind _) = ((S.index.neighbor nbr.2).bind _).map _
    cases S.index.neighbor nbr.2 with
    | none => rfl
    | some ntup =>
      show ((slotRange ntup.tids (hnswNeighborStart S.m (t2LevelFromCount ntup.count S.m S.payloadM) 0)
          (t2L0Width S.m S.payloadM)).bind _) =
        ((slotRange ntup.tids (hnswNeighborStart S.m (t2LevelFromCount ntup.count S.m S.payloadM) 0)
          (t2L0Width S.m S.payloadM)).bind _).map _
      cases slotRange ntup.tids (hnswNeighborStart S.m (t2LevelFromCount ntup.count S.m S.payloadM) 0)
          (t2L0Width S.m S.payloadM) with
      | none => rfl
      | some tids =>
        show (ntup.inline?.bind _) = (ntup.inline?.bind _).map _
        cases ntup.inline? with
        | none => rfl
        | some chunk =>
          show ((walkChain S.carrying tids fuel chunk.next
              (walkChunk tids ⟨s.visited, [], []⟩ chunk)).bind _) =
            ((walkChain (S.switched w) tids fuel chunk.next
              (walkChunk tids ⟨s.visited, [], []⟩ chunk)).bind _).map _
          rw [walkChain_switched w]
          cases walkChain (S.switched w) tids fuel chunk.next
              (walkChunk tids ⟨s.visited, [], []⟩ chunk) with
          | none => rfl
          | some walk =>
            exact foldlM_map (pushCand_resolved w) (walkRest tids walk).cands
              { s with visited := (walkRest tids walk).visited }

theorem expand_resolved (fuel : Nat) (s : State H D) (c : Elem D) :
    expand S.carrying fuel (s.resolved S) (resolve S c) =
      (expand (S.switched w) fuel s c).map (State.resolved S) := by
  have hinline : S.carrying.inlineOn = (S.switched w).inlineOn := rfl
  unfold expand
  rw [hinline]
  split
  · exact t2StreamExpandInline_resolved w fuel s c
  · exact t2StreamExpand_resolved w s c

theorem expandOne_resolved (fuel : Nat) (s : State H D) :
    expandOne S.carrying fuel (s.resolved S) =
      (expandOne (S.switched w) fuel s).map (State.resolved S) := by
  unfold expandOne
  rw [popCandidate_resolved w]
  cases popCandidate (S.switched w) s with
  | none => rfl
  | some popped =>
    show ((expand S.carrying fuel (popped.2.resolved S) (resolve S popped.1)).bind _) =
      ((expand (S.switched w) fuel popped.2 popped.1).bind _).map _
    rw [expand_resolved w]
    cases expand (S.switched w) fuel popped.2 popped.1 with
    | none => rfl
    | some s =>
      show some _ = some _
      rw [resolve_indextid]
      rfl

/-! ### Calls -/

theorem t2RerankOne_resolved (s : State H D) :
    t2RerankOne S.carrying (s.resolved S) =
      (t2RerankOne (S.switched w) s).map (State.resolved S) := by
  unfold t2RerankOne
  show ((H.removeFirst s.R).bind _) = ((H.removeFirst s.R).bind _).map _
  cases H.removeFirst s.R with
  | none => rfl
  | some p =>
    show ((t2LoadNode S true p.1.indextid).bind _) = ((t2LoadNode S true p.1.indextid).bind _).map _
    cases t2LoadNode S true p.1.indextid with
    | none => rfl
    | some node =>
      simp only [Option.bind_some]
      split <;> rfl

theorem expansionGate_resolved (s : State H D) :
    expansionGate S.carrying (s.resolved S) = expansionGate (S.switched w) s := by
  unfold expansionGate State.resolved
  simp only [headDistance_resolved, headLb_resolved]
  rfl

/-- **One iteration** ends the same and leaves the same state, reads pending aside. -/
theorem iterate_resolved (fuel : Nat) (s : State H D) :
    iterate S.carrying fuel (s.resolved S) =
      (iterate (S.switched w) fuel s).map fun r => (r.1, r.2.resolved S) := by
  have happrox : S.carrying.approx = (S.switched w).approx := rfl
  have hrerank : rerankGate S.carrying (s.resolved S) = rerankGate (S.switched w) s := rfl
  have hR : (s.resolved S).R = s.R := rfl
  have hRx : (s.resolved S).Rx = s.Rx := rfl
  unfold iterate
  rw [expansionGate_resolved w, expandOne_resolved w, t2RerankOne_resolved w, happrox, hrerank, hR, hRx]
  split
  · cases expandOne (S.switched w) fuel s <;> rfl
  · split
    · split
      · cases t2RerankOne (S.switched w) s <;> rfl
      · cases H.removeFirst s.Rx <;> rfl
    · cases H.removeFirst s.R <;> rfl

theorem nextLoop_resolved (fuel n : Nat) (s : State H D) :
    nextLoop S.carrying fuel n (s.resolved S) =
      (nextLoop (S.switched w) fuel n s).map fun r => (r.1, r.2.resolved S) := by
  induction n generalizing s with
  | zero => rfl
  | succ n ih =>
    rw [nextLoop, nextLoop, iterate_resolved w]
    cases iterate (S.switched w) fuel s with
    | none => rfl
    | some r =>
      obtain ⟨o, s⟩ := r
      cases o with
      | «continue» => exact ih s
      | emit t => rfl
      | finish => rfl

theorem t2StreamNext_resolved (fuel : Nat) (s : State H D) :
    t2StreamNext S.carrying fuel (s.resolved S) =
      (t2StreamNext (S.switched w) fuel s).map fun r => (r.1, r.2.resolved S) := by
  have hexhausted : (s.resolved S).exhausted = s.exhausted := rfl
  unfold t2StreamNext
  rw [hexhausted]
  split
  · rfl
  · exact nextLoop_resolved w fuel fuel s

/-- **Calls return the same rows** whether candidates carry what was read or not. -/
theorem calls_resolved (fuel k : Nat) (s : State H D) :
    calls S.carrying fuel k (s.resolved S) =
      (calls (S.switched w) fuel k s).map fun r => (r.1, r.2.resolved S) := by
  induction k generalizing s with
  | zero => rfl
  | succ k ih =>
    rw [calls, calls, t2StreamNext_resolved w]
    cases t2StreamNext (S.switched w) fuel s with
    | none => rfl
    | some r =>
      obtain ⟨t, s⟩ := r
      cases t with
      | none => exact ih s
      | some t =>
        show (calls S.carrying fuel k (s.resolved S)).map _ =
          ((calls (S.switched w) fuel k s).map _).map _
        rw [ih s, Option.map_map, Option.map_map]
        rfl

/-- The descent reads under no switch. -/
theorem baseEntry_switched (fuel : Nat) : baseEntry S.carrying fuel = baseEntry (S.switched w) fuel := by
  have hdistance : readDistance S.carrying = readDistance (S.switched w) := rfl
  have hneighbors : readNeighbors S.carrying = readNeighbors (S.switched w) := rfl
  have hdescent : ∀ t startLevel, t2GreedyDescent S.carrying fuel t startLevel 0 =
      t2GreedyDescent (S.switched w) fuel t startLevel 0 := by
    intro t startLevel
    cases hd : t2Distance S t with
    | none =>
      show (t2Distance S t).bind _ = (t2Distance S t).bind _
      rw [hd]
      rfl
    | some d =>
      have hcarrying : t2Distance S.carrying t = some d := hd
      have hswitched : t2Distance (S.switched w) t = some d := hd
      rw [t2GreedyDescent_eq fuel hcarrying, t2GreedyDescent_eq fuel hswitched, hdistance, hneighbors]
  unfold baseEntry
  rw [hdescent]
  rfl

/-- A scan begins the same, reads pending aside. -/
theorem t2StreamBegin_resolved (fuel : Nat) :
    (t2StreamBegin S.carrying fuel : Option (State H D)) =
      (t2StreamBegin (S.switched w) fuel).map (State.resolved S) := by
  have hempty : (State.empty : State H D).resolved S = State.empty := by
    unfold State.resolved State.empty
    dsimp only
    rw [H.map_allocate]
  have hhas : S.carrying.index.metaPage.hasEntry = (S.switched w).index.metaPage.hasEntry := rfl
  have hbase : baseEntry S.carrying fuel = baseEntry (S.switched w) fuel :=
    baseEntry_switched w fuel
  unfold t2StreamBegin
  rw [hhas, hbase]
  split
  · exact congrArg (fun s : State H D => some { s with exhausted := true }) hempty.symm
  · cases baseEntry (S.switched w) fuel with
    | none => rfl
    | some entry =>
      have hseed := push_loadNode_resolved (H := H) w
        { State.empty with visited := markVisited [] entry }
        ((S.switched w).settings.scanSingleRead || (S.switched w).approx) entry (S := S)
      have hstart : ({ State.empty with visited := markVisited [] entry } : State H D).resolved S =
          { State.empty with visited := markVisited [] entry } :=
        congrArg (fun s : State H D => { s with visited := markVisited [] entry }) hempty
      rw [hstart] at hseed
      exact hseed

end

/-! ### All settings -/

theorem scanRows_switched (H : PairingHeap) (S : Stream V Q D) (w : Switches) (fuel k : Nat) :
    scanRows (S.switched w) w.scanPrefetch fuel H k =
      (t2StreamBegin S.carrying fuel : Option (State H D)).bind fun s =>
        (calls S.carrying fuel k s).map Prod.fst := by
  rw [t2StreamBegin_resolved w, scanRows]
  cases (t2StreamBegin (S.switched w) fuel : Option (State H D)) with
  | none => rfl
  | some s =>
    show (prefetchCalls _ _ _ _ _).map _ = (calls S.carrying fuel k (s.resolved S)).map _
    rw [calls_resolved w, ← prefetchCalls_state w.scanPrefetch k ⟨s, []⟩, Option.map_map,
      Option.map_map]
    rfl

/-- **The switches of the fast paths change no row**: under any two settings of them the calls
of `acorn_t2_stream_next` return the same rows in the same order, however many there are. -/
theorem switches_same_rows (H : PairingHeap) (S : Stream V Q D) (w w' : Switches) (fuel k : Nat) :
    scanRows (S.switched w) w.scanPrefetch fuel H k =
      scanRows (S.switched w') w'.scanPrefetch fuel H k := by
  rw [scanRows_switched, scanRows_switched]

end PgAcorn.Scan
