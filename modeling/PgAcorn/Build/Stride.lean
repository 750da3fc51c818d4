import PgAcorn.Build.Runs

/-! The slot arrays keep the geometry of the build, if inserts derive its stride.

An insert takes the payload width from the meta page and the stride from the
options and the session. `fixed_geometry` is what follows when the two agree,
whatever else is altered; `altered_stride` is an insert after they no longer do. -/
namespace PgAcorn.Build
open Library

section
variable {I V Q D : Type} [DecidableEq I] [CDouble D] [Inhabited Q]

/-- Inserts and readers agree on where the slots of a layer are; `r` is the index
the inserts started with. -/
structure FixedGeometry (r : Relation V Q) (p : Inserts I V Q) : Prop where
  recorded : SameGeometry p.shared.relation.metaPage r.metaPage
  /-- A neighbor tuple is as long as the recorded geometry says. -/
  counts : ∀ i t level, .neighbor i t level ∈ p.shared.history.events →
    ∃ n, p.shared.relation.neighbor t = some n ∧
      n.count = t2TotalSlots level r.metaPage.m r.metaPage.payloadWidth
  /-- Slot ranges that were read or written lie in the layer they are for. -/
  accesses : ∀ a ∈ p.shared.history.accesses, a.Good r.metaPage p.shared.relation
  /-- No page access leaves its tuple. -/
  inside : ¬ p.Faulty
  /-- A scan decodes the layers as they were written. -/
  decoded : ∀ t e layer, p.shared.relation.element t = some e → layer ≤ e.level →
    p.shared.relation.layerNeighbors layer t =
      validTids (p.shared.history.written e.neighbortid layer)

variable {H : PairingHeap} {oc : Opclass V Q D} {natts fuel : Nat} {r : Relation V Q}
  {updated : List Tid} {opts : RdOptions} {p : Inserts I V Q}

/-- **The geometry is fixed**, through every sequence of altered options, sessions
and interleaved inserts that derive the recorded stride. -/
theorem fixed_geometry (h : Startable r updated)
    (hrun : Runs (step H oc natts fuel) SameStride (.start opts r updated) p) :
    FixedGeometry r p := by
  have horderly := orderly_of_runs oc h (fun hfalse : False => hfalse.elim)
    (fun _ _ hok => hok) hrun
  have hinv := horderly.1
  refine ⟨hinv.sound.geometry, fun i t level he => hinv.neighborEvent he, hinv.accesses,
    horderly.not_faulty, fun t e layer he hl => ?_⟩
  obtain ⟨n, hn, -⟩ := hinv.sound.neighbors he
  rw [hinv.written he hn hl]
  exact hinv.sound.layerNeighbors he hn layer

end

/-- The options may change as long as the stride does not. -/
theorem fixed_geometry_altered : ∃ p : Inserts (Fin 3) Int Int,
    p.settings = some ⟨2, 8, 1, 0, false, true⟩ ∧ p.shared.history.updated = [⟨1, 4⟩, ⟨1, 2⟩] ∧
      FixedGeometry pointIndex p := by
  have hexec : ((exec (fun p a => if SameStride p a then pointStep p a else none)
      (.start pointOptions pointIndex [])
      (.start 0 (pointRow 0) :: acts 0 6 ++ .alter (some ⟨2, 8, 1, 0, false, true⟩) ::
        .start 1 (pointRow 3) :: acts 1 12)).map
          fun p => (p.settings, p.shared.history.updated)) =
      some (some ⟨2, 8, 1, 0, false, true⟩, [⟨1, 4⟩, ⟨1, 2⟩]) := by
    decide +kernel
  obtain ⟨p, hp, heq⟩ := Option.map_eq_some_iff.mp hexec
  injection heq with hsettings hupdated
  exact ⟨p, hsettings, hupdated, fixed_geometry startable_pointIndex (runs_of_exec hp)⟩

/-- After `SET (m = 3)` an insert writes a neighbor tuple of another length. -/
theorem altered_stride : Startable pointIndex [] ∧ ∃ p : Inserts (Fin 3) Int Int,
    Runs pointStep (fun _ _ => True) (.start pointOptions pointIndex []) p ∧
      ¬ FixedGeometry pointIndex p := by
  have hexec : ((exec (fun p a => if True then pointStep p a else none)
      (.start pointOptions pointIndex [])
      (.alter (some ⟨3, 4, 1, 0, false, false⟩) :: .start 0 (pointRow 0) :: acts 0 6)).map
        fun p => (decide (.neighbor 0 ⟨1, 1⟩ 0 ∈ p.shared.history.events),
          (p.shared.relation.neighbor ⟨1, 1⟩).map NeighborTuple.count)) = some (true, some 5) := by
    decide +kernel
  obtain ⟨p, hp, heq⟩ := Option.map_eq_some_iff.mp hexec
  injection heq with hevent hcount
  refine ⟨startable_pointIndex, p, runs_of_exec hp, fun h => ?_⟩
  obtain ⟨n, hn, hn'⟩ := h.counts 0 ⟨1, 1⟩ 0 (of_decide_eq_true hevent)
  rw [hn, Option.map_some] at hcount
  rw [Option.some.inj hcount] at hn'
  exact absurd hn' (by decide)

end PgAcorn.Build
