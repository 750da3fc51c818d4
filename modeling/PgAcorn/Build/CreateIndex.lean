import PgAcorn.Build.Flushed

/-! CREATE INDEX, and the inserts after it.

A build whose rows fit memory inserts them into a graph and flushes it (`memInsertAll`,
`memFlush`). The index that this leaves has a node's neighbors in its slots, and from then on
any number of inserts go on at once: the graph on disk is well formed at every instant, the
build's elements stay where they are, and no element is without neighbors once the inserts have
ended (`build_then_inserts`). -/
namespace PgAcorn.Build
open Library

section
variable {I V Q D : Type} [DecidableEq I] [CDouble D] [Inhabited Q]
variable {H : PairingHeap} {oc : Opclass V Q D} {natts fuel : Nat} {r : Relation V Q}
  {updated : List Tid} {opts : RdOptions} {p : Inserts I V Q}

/-- **Inserts keep the elements that there are**, and an index with an entry point has one at
every instant, so that no insert finds none. -/
theorem kept_of_runs (h : Startable r updated) (hhas : r.metaPage.hasEntry = true)
    (hborn : ∀ t e, r.element t = some e → r.layerNeighbors 0 t = [] →
      ∀ u e', r.element u = some e' → u = t)
    (hrun : Runs (step H oc natts fuel) SameStride (.start opts r updated) p) :
    (∀ t e, r.element t = some e → p.shared.relation.element t = some e) ∧
      p.shared.relation.metaPage.hasEntry = true ∧
      ∀ i v, .read i false v ∉ p.shared.history.events := by
  induction hrun with
  | refl => exact ⟨fun _ _ he => he, hhas, fun i v he => by cases he⟩
  | @tail q q' hrun hlast ih =>
    obtain ⟨a, hok, hstep⟩ := hlast
    obtain ⟨hkept, hentry, hread⟩ := ih
    have horderly := orderly_of_runs oc h (fun _ : True => hborn) (fun _ _ hok => hok) hrun
    cases a with
    | alter settings =>
      obtain rfl := Option.some.inj hstep
      exact ⟨hkept, hentry, hread⟩
    | start i row =>
      revert hstep
      rw [step, Pool.step]
      cases q.threads i with
      | none =>
        rintro ⟨⟩
        exact ⟨hkept, hentry, hread⟩
      | some prog => exact fun hstep => by cases hstep
    | act i =>
      obtain ⟨-, heff, -⟩ := horderly.act hstep
      have hframe := heff.frame horderly.1
      refine ⟨fun t e he => hframe.element (hkept t e he), hframe.hasEntry hentry, fun j v he => ?_⟩
      obtain hold | ⟨-, hfound, -⟩ := heff.read_event he
      · exact hread j v hold
      · rw [hentry] at hfound
        cases hfound

/-- Once all inserts have ended, an element of an index that never lacked an entry point has
neighbors if there is another one. -/
theorem neighbors_of_quiet (h : Startable r updated) (hhas : r.metaPage.hasEntry = true)
    (hborn : ∀ t e, r.element t = some e → r.layerNeighbors 0 t = [] →
      ∀ u e', r.element u = some e' → u = t)
    (hrun : Runs (step H oc natts fuel) SameStride (.start opts r updated) p) (hquiet : p.Quiet)
    {t u : Tid} {e e' : ElementTuple V} (he : p.shared.relation.element t = some e)
    (hu : p.shared.relation.element u = some e') (hne : u ≠ t) :
    p.shared.relation.layerNeighbors 0 t ≠ [] := by
  intro hnil
  have horderly := orderly_of_runs oc h (fun _ : True => hborn) (fun _ _ hok => hok) hrun
  obtain ⟨-, -, hread⟩ := kept_of_runs h hhas hborn hrun
  have hlone : Lone p.shared.history.events :=
    ⟨fun i v hi => absurd hi (hread i v), fun i j v v' hi => absurd hi (hread i v)⟩
  obtain halone | ⟨j, w, o, ho, hmem⟩ := horderly.1.born trivial hlone he hnil
  · exact hne (halone u e' hu)
  · -- the insert that offered it an edge has ended
    have hpaid : Paid j p.shared := by
      cases hthread : p.threads j with
      | none =>
        have hidle := horderly.2 j
        rw [hthread] at hidle
        exact absurd rfl (hidle _ ho)
      | some prog =>
        obtain ⟨-, hp⟩ | hp := horderly.ended hthread (hquiet j prog hthread)
        · exact hp
        · exact hp
    exact hpaid w o ho t hmem hnil

/-- What any inserts have made of an index. -/
structure Sustained (r : Relation V Q) (p : Inserts I V Q) : Prop where
  intact : Intact p.shared
  /-- The elements that there were are still there. -/
  kept : ∀ t e, r.element t = some e → p.shared.relation.element t = some e
  /-- Once all inserts have ended, no element is without neighbors. -/
  neighbors : r.metaPage.hasEntry = true → p.Quiet → ∀ t e u e',
    p.shared.relation.element t = some e → p.shared.relation.element u = some e' → u ≠ t →
      p.shared.relation.layerNeighbors 0 t ≠ []

/-- **CREATE INDEX, then any inserts.** The build ends, and an index that its graph is flushed to
has that graph; and whatever inserts run then, in any interleaving, they sustain it. -/
theorem build_then_inserts (H : PairingHeap) (hD : TotalOrder D) (mb : MemBuild V)
    (oc : Opclass V Q D) (o : MemSettings) (dims : Nat) (inlineVectors : Bool) (hefc : 1 ≤ o.efc)
    (hm : 0 < mb.mEff) (hpayload : 0 < mb.payloadM)
    (hwidth : t2L0Width mb.mEff mb.payloadM ≤ hnswMaxNeighbors) (hstray : NeverStray mb oc.dist o)
    (hfits : mb.FitsPages oc (mb.params dims inlineVectors)) (n : Nat) (hn : n ≤ mb.nNodes)
    (natts fuel : Nat) (opts : RdOptions) :
    ∃ g : MemGraph mb, (∃ bound, ∀ fuel ≥ bound,
        (memInsertAll H oc.dist fuel o n).exec (.init mb) = some ((), g)) ∧
      ∀ (heaptid : Fin mb.nNodes → Tid) (s s' : Disk I V Q),
        s.relation = emptyIndex V Q mb.mEff mb.payloadM dims inlineVectors →
        memFlush oc (mb.params dims inlineVectors) (g.flushed heaptid) s = some s' →
        Represents g heaptid (g.place oc (mb.params dims inlineVectors) heaptid) s'.relation ∧
        ∀ p : Inserts I V Q, Runs (step H oc natts fuel) SameStride
          (.start opts s'.relation (Relation.entries s'.relation)) p → Sustained s'.relation p := by
  obtain ⟨_, g, hbound, hg, rfl⟩ := memInsertAll_ends H hD hefc hm hstray n hn _ rfl
  refine ⟨g, hbound, fun heaptid s s' hs hflush => ?_⟩
  obtain ⟨hr, hstart⟩ := hg.memFlush hm hpayload hwidth hfits hs hflush
  have hborn : ∀ t e, s'.relation.element t = some e → s'.relation.layerNeighbors 0 t = [] →
      ∀ u e', s'.relation.element u = some e' → u = t :=
    fun t e he hnil u e' hu => hr.alone hg.joined he hnil hu
  refine ⟨hr, fun p hrun => ⟨?_, fun t e he => ?_, fun hhas hquiet t e u e' he hu hne =>
    neighbors_of_quiet hstart hhas hborn hrun hquiet he hu hne⟩⟩
  · exact (orderly_of_runs oc hstart (fun hfalse : False => hfalse.elim) (fun _ _ hok => hok)
      hrun).1.intact
  · -- an index with an element has an entry point
    obtain ⟨id, hid, -⟩ := hr.others he
    obtain ⟨top, -, hentry, -⟩ := hg.entries.top (Nat.zero_lt_of_lt hid)
    exact (kept_of_runs hstart (hr.entry hentry).1 hborn hrun).1 t e he

end

/-- The index of the line, before the flush. -/
def lineIndex : Disk (Fin 2) Int Unit :=
  ⟨emptyIndex Int Unit 2 2 1 true, .start (emptyIndex Int Unit 2 2 1 true) []⟩

def lineHeap (id : Fin 3) : Tid := ⟨7, id.val + 1⟩

/-- The three nodes on a line, with inline vectors. -/
theorem build_then_inserts_line : ∃ g : MemGraph lineNodes,
    (∃ bound, ∀ fuel ≥ bound,
      (memInsertAll PairingHeap.list ladderOps.dist fuel lineSettings 3).exec (.init lineNodes) =
        some ((), g)) ∧
    ∀ s', memFlush ladderOps (lineNodes.params 1 true) (g.flushed lineHeap) lineIndex = some s' →
      Represents g lineHeap (g.place ladderOps (lineNodes.params 1 true) lineHeap) s'.relation ∧
      ∀ p : Inserts (Fin 2) Int Unit, Runs (step PairingHeap.list ladderOps 1 20) SameStride
        (.start pointOptions s'.relation (Relation.entries s'.relation)) p →
          Sustained s'.relation p := by
  obtain ⟨g, hbound, h⟩ := build_then_inserts (I := Fin 2) PairingHeap.list totalOrder_int
    lineNodes ladderOps lineSettings 1 true (by decide) (by decide) (by decide) (by decide)
    (.inr (by decide)) (by unfold MemBuild.FitsPages; decide) 3 le_rfl 1 20 pointOptions
  exact ⟨g, hbound, fun s' => h lineHeap lineIndex s' rfl⟩

/-- Their neighbors on disk; the places are those of the elements, after three neighbor tuples. -/
example : ((memInsertAll PairingHeap.list ladderOps.dist 20 lineSettings 3).exec
    (.init lineNodes)).bind (fun p =>
      (memFlush ladderOps (lineNodes.params 1 true) (p.2.flushed lineHeap) lineIndex).map fun s =>
        [⟨1, 4⟩, ⟨1, 5⟩, ⟨1, 6⟩].map (s.relation.layerNeighbors 0)) =
    some [[⟨1, 5⟩, ⟨1, 6⟩], [⟨1, 4⟩, ⟨1, 6⟩], [⟨1, 5⟩, ⟨1, 4⟩]] := by decide +kernel

end PgAcorn.Build
