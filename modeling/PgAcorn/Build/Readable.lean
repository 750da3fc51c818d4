import PgAcorn.Build.Upkeep
import PgAcorn.Vacuum

/-! What a scan finds while an index is inserted into and vacuumed.

At every instant of any interleaving the index is one that scans can read in any mode: its graph
is well formed, every chain of chunks ends, and every inline entry repeats the element it names,
but for marks it misses (`readable_of_runs`). Scans of the index as it is then agree, whatever
modes they are in (`scans_agree_among_commands`). -/
namespace PgAcorn.Build
open Library
open PgAcorn.Filter (Fmgr ScanKey)
open PgAcorn.Scan
open PgAcorn.Vacuum (Rows Ample)

section
variable {I V Q D : Type}

/-- Scans can read the index. -/
structure Readable (oc : Opclass V Q D) (r : Relation V Q) : Prop where
  index : r.WellFormed
  inline : r.metaPage.inlineVectors = true → r.InlineWellFormed
  /-- A valid entry repeats the element it names, code and all. -/
  entries : ∀ {entry : InlineEntry Q}, Relation.HasEntry r entry → entry.valid = true →
    Describes oc r.metaPage.dimensions entry r

variable {oc : Opclass V Q D} {dims : Nat} {r : Relation V Q}

/-- **Chains end**, after at most as many chunks as the rank of the first one. -/
theorem chainEnds_of_ranked {rank : Tid → Nat} (hrank : ∀ {t : Tid} {c : InlineChunk Q},
      (r.item t).bind IndexTuple.chunk? = some c → c.next.isValid = true → rank c.next < rank t)
    (hcont : ∀ {t : Tid} {c : InlineChunk Q}, (r.item t).bind IndexTuple.chunk? = some c →
      Continues r c.next) (n : Nat) {t : Tid} {c : InlineChunk Q}
    (hc : (r.item t).bind IndexTuple.chunk? = some c) (hn : rank t ≤ n) :
    ∃ k ≤ n, Relation.ChainEnds r c.next k := by
  induction n generalizing t c with
  | zero =>
    refine ⟨0, le_rfl, .last ?_⟩
    by_contra hv
    rw [Bool.not_eq_false] at hv
    have := hrank hc hv
    omega
  | succ n ih =>
    cases hv : c.next.isValid with
    | false => exact ⟨0, Nat.zero_le _, .last hv⟩
    | true =>
      obtain ⟨c', hc'⟩ := hcont hc hv
      have hlt := hrank hc hv
      obtain ⟨k, hk, hends⟩ := ih (show (r.item c.next).bind IndexTuple.chunk? = some c' by
        rw [hc']
        rfl) (by omega)
      exact ⟨k + 1, by omega, .cons hc' hends⟩

theorem chunk_of_neighbor {t : Tid} {n : NeighborTuple Q} {c : InlineChunk Q}
    (hn : r.neighbor t = some n) (hc : n.inline? = some c) :
    (r.item t).bind IndexTuple.chunk? = some c := by
  rw [Relation.neighbor_some.mp hn]
  exact hc

/-- Entries of a coherent index repeat their elements. -/
theorem Coherent.describes (h : Coherent oc dims r) {entry : InlineEntry Q}
    (hentry : Relation.HasEntry r entry) (hv : entry.valid = true) :
    Describes oc dims entry r := by
  cases hentry with
  | primary hn hc he => exact (h.right (chunk_of_neighbor hn hc)).entries entry he hv
  | @cont t c hc he =>
    refine (h.right (show (r.item t).bind IndexTuple.chunk? = some c from ?_)).entries entry he hv
    rw [hc]
    rfl

/-- **A coherent index whose elements all have chunks can be read inline.** -/
theorem Coherent.inlineWellFormed (h : Coherent oc dims r)
    (hchunk : ∀ {t : Tid} {e : ElementTuple V} {n : NeighborTuple Q}, r.element t = some e →
      r.neighbor e.neighbortid = some n → ∃ c, n.inline? = some c) : r.InlineWellFormed where
  chunk := hchunk
  chains := by
    obtain ⟨rank, bound, hbound, hrank⟩ := h.ranked
    refine ⟨bound, fun {t e n c} he hn hc => ?_⟩
    exact chainEnds_of_ranked hrank (fun hc => (h.right hc).next) bound (chunk_of_neighbor hn hc)
      (hbound _)
  entries {entry e} hentry hv he := by
    obtain ⟨e', he', -, hnbr, hlevel, hfilter, -, hd⟩ := h.describes hentry hv
    obtain rfl := Option.some.inj (he'.symm.trans he)
    exact ⟨hnbr, hlevel, hfilter, hd⟩

end

/-! ### The graph but for marks -/

theorem isSome_inline_of_unmarked {Q : Type} {n n' : NeighborTuple Q}
    (h : n.unmarked = n'.unmarked) : n.inline?.isSome = n'.inline?.isSome := by
  have hinline := congrArg (fun n : NeighborTuple Q => n.inline?.isSome) h
  simpa [NeighborTuple.unmarked] using hinline

/-- An intact graph is well formed, given how wide its arrays are. -/
theorem Intact.wellFormed {I V Q : Type} {s : Disk I V Q} (h : Intact s)
    (hm : 0 < s.relation.metaPage.m)
    (hwidth : t2L0Width s.relation.metaPage.m s.relation.metaPage.payloadWidth ≤ hnswMaxNeighbors) :
    s.relation.WellFormed where
  m_pos := hm
  width := hwidth
  neighbors he := h.neighbors _ _ he
  targets he hl hu := (h.targets _ _ _ _ he hl hu).2
  entry hhas := (h.entry hhas).2

/-! ### Modes of scanning -/

section
variable {V Q D : Type} {S S' : Stream V Q D}

/-- The scans are of one index, for one query and the same keys. -/
structure SameQuery (S S' : Stream V Q D) : Prop where
  index : S'.index = S.index
  kernels : S'.kernels = S.kernels
  fmgr : S'.fmgr = S.fmgr
  keys : S'.keys = S.keys
  m : S'.m = S.m
  directFilter : S'.settings.scanDirectFilter = S.settings.scanDirectFilter

theorem SameQuery.returned_eq (h : SameQuery S S') : returned S' = returned S := by
  funext t
  unfold returned
  rw [h.index, h.fmgr, h.keys, h.directFilter]

theorem SameQuery.heapTid_eq (h : SameQuery S S') : heapTid S' = heapTid S := by
  funext t
  unfold heapTid
  rw [h.index]

variable [CDouble D] {H : PairingHeap}

/-- The descent reads under no mode. -/
theorem SameQuery.baseEntry_eq (h : SameQuery S S') (fuel : Nat) :
    baseEntry S' fuel = baseEntry S fuel := by
  have hread : Scan.t2Distance S' = Scan.t2Distance S := by
    funext t
    unfold Scan.t2Distance
    rw [h.index, h.kernels]
  have hdistance : readDistance S' = readDistance S := by
    unfold readDistance
    rw [hread]
  have hneighbors : readNeighbors S' = readNeighbors S := by
    unfold readNeighbors
    rw [h.index, h.m]
  have hdescent : ∀ t startLevel,
      t2GreedyDescent S' fuel t startLevel 0 = t2GreedyDescent S fuel t startLevel 0 := by
    intro t startLevel
    cases hd : Scan.t2Distance S t with
    | none =>
      unfold t2GreedyDescent
      rw [hread, hd]
      rfl
    | some d =>
      rw [t2GreedyDescent_eq fuel hd, t2GreedyDescent_eq fuel (hread ▸ hd), hdistance, hneighbors]
  unfold baseEntry
  rw [h.index]
  simp only [hdescent]

/-- Both scans end, and with ample budgets they return the same rows. -/
def ScansAgree (H : PairingHeap) (S S' : Stream V Q D) : Prop :=
  ∃ out out', Rows H S out ∧ Rows H S' out' ∧ (Ample S → Ample S' → out.Perm out')

/-- **Scans that discover what they should agree.** -/
theorem SameQuery.agree (h : SameQuery S S') (hS : ScanCorrect H S) (hS' : ScanCorrect H S') :
    ScansAgree H S S' := by
  obtain ⟨fuel, s₀, s, out, hrun, hrows, hnone⟩ := hS
  obtain ⟨fuel', s₀', s', out', hrun', hrows', hnone'⟩ := hS'
  refine ⟨out, out', ⟨fuel, s₀, s, hrun⟩, ⟨fuel', s₀', s', hrun'⟩, fun hample hample' => ?_⟩
  cases hentry : S.index.metaPage.hasEntry with
  | false => rw [hnone hentry, hnone' (by rw [h.index, hentry])]
  | true =>
    obtain ⟨base, hbase, hemits⟩ := hrows hentry
    obtain ⟨base', hbase', hemits'⟩ := hrows' (by rw [h.index, hentry])
    -- both descents end at the same element
    have hsame : base' = base := by
      have hb := hbase (max fuel fuel') (Nat.le_max_left _ _)
      have hb' := hbase' (max fuel fuel') (Nat.le_max_right _ _)
      rw [h.baseEntry_eq, hb] at hb'
      exact (Option.some.inj hb').symm
    subst hsame
    obtain ⟨disc, hnodup, hdisc, hperm⟩ := hemits.reachable (hample ⟨fuel, hbase fuel le_rfl⟩)
    obtain ⟨disc', hnodup', hdisc', hperm'⟩ :=
      hemits'.reachable (hample' ⟨fuel', hbase' fuel' le_rfl⟩)
    have hsets : disc.Perm disc' := by
      apply (List.perm_ext_iff_of_nodup hnodup hnodup').mpr
      intro t
      rw [hdisc, hdisc', h.index]
    rw [h.returned_eq, h.heapTid_eq] at hperm'
    exact hperm.trans (((hsets.filter _).map _).trans hperm'.symm)

/-- Scans of the index, with caches that agree with it and distances below `DBL_MAX`, return the
same rows whatever modes they are in: inline entries, the code cache or element pages, buffered or
eager. -/
def ModesAgree (D : Type) [CDouble D] (r : Relation V Q) : Prop :=
  ∀ (H : PairingHeap) (settings settings' : Settings) (fmgr : Fmgr) (kernels : Kernels V Q D)
    (cache cache' : Option (Tid → Option (CodeCacheHit Q))) (keys : List ScanKey)
    (efSearch efSearch' : Nat),
    let S := Stream.ofIndex settings fmgr kernels cache r keys efSearch
    let S' := Stream.ofIndex settings' fmgr kernels cache' r keys efSearch'
    settings'.scanDirectFilter = settings.scanDirectFilter → CacheAgrees cache r →
      CacheAgrees cache' r → DistancesBelow S → DistancesBelow S' → ScansAgree H S S'

theorem Readable.modesAgree {oc : Opclass V Q D} {r : Relation V Q} (h : Readable oc r) :
    ModesAgree D r := by
  intro H settings settings' fmgr kernels cache cache' keys efSearch efSearch' S S' hfilter hcache
    hcache' hbelow hbelow'
  have hserves : Serves S :=
    serves_ofIndex settings fmgr kernels keys efSearch h.index h.inline hcache
  have hserves' : Serves S' :=
    serves_ofIndex settings' fmgr kernels keys efSearch' h.index h.inline hcache'
  have hsame : SameQuery S S' := ⟨rfl, rfl, rfl, rfl, rfl, hfilter⟩
  exact hsame.agree (scanCorrect_of_serves hserves hbelow) (scanCorrect_of_serves hserves' hbelow')

end

/-! ### Every instant -/

section
variable {I V Q D : Type} [DecidableEq I] [CDouble D] [Inhabited Q] {H : PairingHeap}
  {oc : Opclass V Q D} {natts fuel : Nat} {r : Relation V Q} {updated : List Tid}
  {opts : RdOptions} {reaped : Tid → Bool} {p : Sessions I V Q}

omit [DecidableEq I] in
/-- Every command heeds the upkeep. -/
theorem body_heeds (oc : Opclass V Q D) (dims : Nat) (i : I) (opts : RdOptions)
    (command : Command V) :
    (upkeep (I := I) oc dims).Heeds (fun _ => True) (command.body (Q := Q) H oc natts fuel i opts)
      fun _ _ => True := by
  cases command with
  | insert row => exact .bind (insert_heeds i opts row) fun _ => .pure fun _ _ => trivial
  | vacuum callback => exact .bind (bulkdelete_heeds callback) fun _ => .pure fun _ _ => trivial

/-- **Entries stay right.** -/
theorem coherent_of_runs (hcoherent : Coherent oc r.metaPage.dimensions r)
    (hrun : Runs (serve H oc natts fuel) (Permitted reaped) (.start opts r updated) p) :
    Coherent oc r.metaPage.dimensions p.shared.relation := by
  have hkept : Regime.Kept (upkeep oc r.metaPage.dimensions) p :=
    Regime.run (fun {p i command} _ => (body_heeds oc _ i p.settings command).weaken
      fun _ _ => trivial) (Regime.Kept.init opts (show (upkeep oc r.metaPage.dimensions).inv
        ⟨r, History.start r updated⟩ from hcoherent)) hrun
  exact hkept.inv

/-- The index can be read at every instant. -/
theorem readable_of_runs (h : Startable r updated)
    (hcoherent : Coherent oc r.metaPage.dimensions r)
    (hrun : Runs (serve H oc natts fuel) (Permitted reaped) (.start opts r updated) p) :
    Readable oc p.shared.relation := by
  have hcoherent' := coherent_of_runs hcoherent hrun
  obtain ⟨-, q, hq, hfollows⟩ := follows_of_runs hrun
  have hsame := hfollows.shared
  have horderly := orderly_of_runs oc h (fun hfalse : False => hfalse.elim) (fun _ _ hok => hok) hq
  have hsound := horderly.1.sound
  have hwellFormed := hsound.wellFormed
  refine ⟨(Intact.of_same hsame horderly.1.intact).wellFormed ?_ ?_,
    fun hon => hcoherent'.inlineWellFormed ?_, fun hentry hv => ?_⟩
  · rw [hsame.metaPage]
    exact hwellFormed.m_pos
  · rw [hsame.metaPage]
    exact hwellFormed.width
  · intro t e n he hn
    obtain ⟨e', he', hmarks⟩ := hsame.element_some he
    rw [(ElementTuple.fields_of_unmarked hmarks).2.2.1] at hn
    obtain ⟨hnone, -⟩ | ⟨n₁, n', hn₁, hn', hmarks'⟩ := rel_cases (hsame.neighbor e'.neighbortid)
    · cases hn.symm.trans hnone
    obtain rfl := Option.some.inj (hn₁.symm.trans hn)
    rw [hsame.metaPage, hsound.geometry.inlineVectors] at hon
    have hinline := hsound.inline hon he' hn'
    rw [← isSome_inline_of_unmarked hmarks'] at hinline
    exact Option.isSome_iff_exists.mp hinline
  · rw [hcoherent'.dimensions]
    exact hcoherent'.describes hentry hv

/-- **Scans at every instant.** The index can be read, and scans of it agree in any modes. -/
theorem scans_agree_among_commands (h : Startable r updated)
    (hcoherent : Coherent oc r.metaPage.dimensions r)
    (hrun : Runs (serve H oc natts fuel) (Permitted reaped) (.start opts r updated) p) :
    Readable oc p.shared.relation ∧ ModesAgree D p.shared.relation := by
  have hread := readable_of_runs h hcoherent hrun
  exact ⟨hread, hread.modesAgree⟩

end

/-! ### An empty index -/

/-- There is nothing to be wrong. -/
theorem coherent_emptyIndex {V Q D : Type} (oc : Opclass V Q D) (mEff payloadM dims : Nat)
    (inlineVectors : Bool) :
    Coherent oc dims (emptyIndex V Q mEff payloadM dims inlineVectors) := by
  have hnone : ∀ {t : Tid} {c : InlineChunk Q}, ((emptyIndex V Q mEff payloadM dims
      inlineVectors).item t).bind IndexTuple.chunk? ≠ some c := by
    intro t c
    rw [emptyIndex_item]
    exact fun hc => by cases hc
  exact ⟨rfl, fun hc => absurd hc hnone, fun _ => 0, 0, fun _ => le_rfl, fun hc => absurd hc hnone⟩

attribute [local instance] neZero_three

/-- `pointIndex`, with inline vectors. -/
def inlinePoints : Relation Int Int := emptyIndex Int Int 2 2 1 true

/-- The first inline entry of a neighbor tuple: its mark and what it names. -/
def firstEntry (r : Relation Int Int) (t : Tid) : Option (Bool × Tid) :=
  ((r.neighbor t).bind NeighborTuple.inline?).bind fun c =>
    c.entries.head?.map fun entry => (entry.deleted, entry.indextid)

/-- The elements are `0` and `3`. -/
def fewPoints (r : Relation Int Int) : Bool :=
  r.pages.all fun page => page.items.all fun x => match x with
    | .element e => decide (e.vec = 0 ∨ e.vec = 3)
    | _ => true

/-- A scan for the origin, over inline entries or element pages. -/
def originScan (inline : Bool) (r : Relation Int Int) : Stream Int Int ExtInt :=
  Stream.ofIndex ⟨false, true, true, true, true, inline, true, none⟩ Fmgr.builtin
    ⟨squaredDistance, squaredDistance, fun d _ => d, true⟩ none r [] 40

/-- Few points are near. -/
theorem distancesBelow_origin {r : Relation Int Int} (hfew : fewPoints r = true)
    (hread : Readable points r) (inline : Bool) : DistancesBelow (originScan inline r) := by
  have hzero : Below (squaredDistance 0) := by
    unfold Below
    decide +kernel
  intro base _ t d lb _ hd
  cases hd with
  | @page t e he _ =>
    have hitem := Relation.element_some.mp he
    unfold Relation.item at hitem
    split at hitem
    · cases hitem
    obtain ⟨page, hpage, hx⟩ := Option.bind_eq_some_iff.mp hitem
    have hvec := List.all_eq_true.mp (List.all_eq_true.mp hfew page (List.mem_of_getElem? hpage))
      (.element e) (List.mem_of_getElem? hx)
    have hbelow : Below (squaredDistance e.vec) := by
      obtain h0 | h3 := of_decide_eq_true hvec
      · rw [h0]
        exact hzero
      · rw [h3]
        unfold Below
        decide +kernel
    exact ⟨hbelow, hbelow⟩
  | hit h =>
    have hnone : (originScan inline r).cc = none := by
      unfold originScan Stream.ofIndex
      dsimp only
      split <;> rfl
    rw [hnone] at h
    cases h
  | entry hon h hv =>
    obtain ⟨e, -, -, -, -, -, hcode, -⟩ := hread.entries h hv
    rw [hcode]
    exact ⟨hzero, hzero⟩

/-- A vacuum while a second point is inserted: it marks the first one, whose entry in the second
one's chunk is gathered after that. -/
theorem scans_agree_among_commands_pair : ∃ p : Sessions (Fin 3) Int Int,
    [⟨1, 1⟩, ⟨1, 3⟩].map (firstEntry p.shared.relation) =
      [some (false, ⟨1, 4⟩), some (true, ⟨1, 2⟩)] ∧
    Readable points p.shared.relation ∧ ScansAgree PairingHeap.list
      (originScan true p.shared.relation) (originScan false p.shared.relation) := by
  have hexec : ((exec pointServed (.start pointOptions inlinePoints [])
      (firstPoint ++ .start 1 (.insert (pointRow 3)) :: .replicate 4 (.act 1) ++
        .start 2 (.vacuum fun _ => true) :: .replicate 2 (.act 2) ++ .replicate 11 (.act 1))).map
          fun p => ([⟨1, 1⟩, ⟨1, 3⟩].map (firstEntry p.shared.relation),
            fewPoints p.shared.relation)) =
      some ([some (false, ⟨1, 4⟩), some (true, ⟨1, 2⟩)], true) := by
    decide +kernel
  obtain ⟨p, hp, hsummary⟩ := Option.map_eq_some_iff.mp hexec
  obtain ⟨hentries, hfew⟩ := Prod.mk.inj hsummary
  obtain ⟨hread, hagree⟩ := scans_agree_among_commands
    (startable_emptyIndex (by decide) (by decide) (by decide) 1 true)
    (coherent_emptyIndex points 2 2 1 true) (runs_of_exec hp)
  have hcache : CacheAgrees (none : Option (Tid → Option (CodeCacheHit Int))) p.shared.relation :=
    fun hcc => by cases hcc
  exact ⟨p, hentries, hread, hagree PairingHeap.list _ _ _ _ none none [] 40 40 rfl hcache hcache
    (distancesBelow_origin hfew hread true) (distancesBelow_origin hfew hread false)⟩

end PgAcorn.Build
