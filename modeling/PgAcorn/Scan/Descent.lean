import PgAcorn.Scan.Emission
import PgAcorn.Layers

/-! The base-layer entry point and the first state of a scan.

The scan's greedy descent carries the distance of its cursor along where the build computes
it again in each pass; otherwise it is the same program over its own reads
(`t2GreedyDescent_eq`), and on a well-formed index it descends the layers as a descent
does (`t2GreedyDescent_descends`). -/
namespace PgAcorn.Scan
open Library

variable {V Q D : Type} [CDouble D] {H : PairingHeap}

/-! ### The descent as a program -/

section
variable (S : Stream V Q D)

/-- The distance of an element, read from the index. -/
def readDistance (t : Tid) : Prog Unit D := .read fun _ => t2Distance S t

/-- The neighbors of an element on a layer, read from the index. -/
def readNeighbors (lc : Nat) (t : Tid) : Prog Unit (List Tid) :=
  .read fun _ => (S.index.element t).bind fun e =>
    getNeighbors S.index e.neighbortid e.level lc S.m hnswMaxNeighbors

end

variable {S : Stream V Q D}

/-- What is read is valid. -/
theorem isValid_of_getNeighbors {r : Relation V Q} {nbrtid : Tid} {level layer m limit : Nat}
    {us : List Tid} (h : getNeighbors r nbrtid level layer m limit = some us) :
    ∀ u ∈ us, u.isValid = true := by
  simp only [getNeighbors, Option.bind_eq_bind, Option.bind_eq_some_iff] at h
  obtain ⟨n, -, h⟩ := h
  generalize min (if layer = 0 then (n.count : Int) - level * m else m) (limit : Int) = count at h
  split at h
  · obtain rfl := Option.some.inj h
    exact fun u hu => absurd hu List.not_mem_nil
  · obtain ⟨range, -, rfl⟩ := Option.map_eq_some_iff.mp h
    exact fun u hu => (List.mem_filter.mp hu).2

theorem foldlM_exec (us : List Tid) (hus : ∀ u ∈ us, u.isValid = true) (c : Tid × D × Bool) :
    (us.foldlM (greedyNeighbor (readDistance S)) c).exec () =
      (us.foldlM (descendNeighbor S) c).map fun r => (r, ()) := by
  induction us generalizing c with
  | nil => rfl
  | cons u us ih =>
    have hu : u.isValid = true := hus u List.mem_cons_self
    have hstep : descendNeighbor S c u = (t2Distance S u).map fun nd =>
        if CDouble.lt nd c.2.1 then (u, nd, true) else c := by
      rw [descendNeighbor, hu]
      rfl
    rw [List.foldlM_cons, List.foldlM_cons, hstep, Prog.bind_eq, Prog.exec_bind, greedyNeighbor,
      Prog.bind_eq, Prog.exec_bind]
    cases hd : t2Distance S u with
    | none =>
      have hread : (readDistance S u).exec () = none := Prog.exec_read_none hd
      rw [hread]
      rfl
    | some nd =>
      have hread : (readDistance S u).exec () = some (nd, ()) := Prog.exec_read hd
      rw [hread]
      exact ih (fun v hv => hus v (List.mem_cons_of_mem u hv)) _

/-- What a pass leaves is as far away as it says. -/
theorem foldlM_carries (us : List Tid) {c r : Tid × D × Bool} (hc : t2Distance S c.1 = some c.2.1)
    (h : us.foldlM (descendNeighbor S) c = some r) : t2Distance S r.1 = some r.2.1 := by
  induction us generalizing c with
  | nil =>
    obtain rfl := Option.some.inj h
    exact hc
  | cons u us ih =>
    rw [List.foldlM_cons, Option.bind_eq_bind, Option.bind_eq_some_iff] at h
    obtain ⟨c', hstep, hrest⟩ := h
    refine ih ?_ hrest
    unfold descendNeighbor at hstep
    split at hstep
    · obtain rfl := Option.some.inj hstep
      exact hc
    · obtain ⟨nd, hnd, rfl⟩ := Option.map_eq_some_iff.mp hstep
      split
      · exact hnd
      · exact hc

/-- A pass is the program's, from a cursor that carries its distance. -/
theorem greedyRound_exec {lc : Nat} {t : Tid} {d : D} (hd : t2Distance S t = some d) :
    (Library.greedyRound (readDistance S) (readNeighbors S lc) t).exec () =
      (greedyRound S lc (t, d)).map fun r => (r, ()) := by
  obtain ⟨e, he, -⟩ := Option.map_eq_some_iff.mp hd
  have hread : (readDistance S t).exec () = some (d, ()) := Prog.exec_read hd
  simp only [Library.greedyRound, Prog.bind_eq, Prog.exec_bind, hread, Option.bind_some, greedyRound,
    he, Option.bind_eq_bind]
  cases hus : getNeighbors S.index e.neighbortid e.level lc S.m hnswMaxNeighbors with
  | none =>
    rw [readNeighbors, Prog.exec_read_none (by rw [he]; exact hus)]
    rfl
  | some us =>
    rw [readNeighbors, Prog.exec_read (by rw [he]; exact hus)]
    exact foldlM_exec us (isValid_of_getNeighbors hus) _

theorem greedyRound_carries {lc : Nat} {c : Tid × D} (hc : t2Distance S c.1 = some c.2)
    {r : Tid × D × Bool} (h : greedyRound S lc c = some r) : t2Distance S r.1 = some r.2.1 := by
  simp only [greedyRound, Option.bind_eq_bind, Option.bind_eq_some_iff] at h
  obtain ⟨e, -, us, -, h⟩ := h
  exact foldlM_carries us hc h

/-- The passes on a layer are the program's. -/
theorem greedyLayer_exec (lc n : Nat) {c : Tid × D} (hc : t2Distance S c.1 = some c.2) :
    (Library.greedyLayer (readDistance S) (readNeighbors S lc) n c.1).exec () =
      (greedyLayer S lc n c).map (fun r => (r.1, ())) ∧
      ∀ r, greedyLayer S lc n c = some r → t2Distance S r.1 = some r.2 := by
  induction n generalizing c with
  | zero => exact ⟨rfl, fun r h => by cases h⟩
  | succ n ih =>
    rw [Library.greedyLayer, greedyLayer, Prog.bind_eq, Prog.exec_bind, greedyRound_exec hc]
    cases hround : greedyRound S lc c with
    | none => exact ⟨rfl, fun r h => by cases h⟩
    | some r =>
      have hr := greedyRound_carries hc hround
      obtain ⟨t, d, moved⟩ := r
      cases moved with
      | true => exact ih (c := (t, d)) hr
      | false =>
        refine ⟨rfl, fun r h => ?_⟩
        obtain rfl := Option.some.inj h
        exact hr

/-- The layers are the program's. -/
theorem greedyLayers_exec (fuel target lc : Nat) {c : Tid × D} (hc : t2Distance S c.1 = some c.2) :
    (greedyDescend (readDistance S) (readNeighbors S) fuel target lc c.1).exec () =
      (greedyLayers S fuel target lc c).map fun r => (r.1, ()) := by
  induction lc generalizing c with
  | zero => rfl
  | succ lc ih =>
    rw [greedyDescend, greedyLayers]
    split
    · obtain ⟨hexec, hcarries⟩ := greedyLayer_exec (lc + 1) fuel hc
      rw [Prog.bind_eq, Prog.exec_bind, hexec]
      cases hlayer : greedyLayer S (lc + 1) fuel c with
      | none => rfl
      | some r => exact ih (hcarries r hlayer)
    · rfl

/-- **The scan's descent is the build's program**, over what the scan reads of the index; that
the scan carries the distance along makes no difference. -/
theorem t2GreedyDescent_eq (fuel : Nat) {t : Tid} {d : D} (hd : t2Distance S t = some d)
    (startLevel targetLevel : Nat) :
    t2GreedyDescent S fuel t startLevel targetLevel =
      ((greedyDescend (readDistance S) (readNeighbors S) fuel targetLevel startLevel t).exec ()).map
        Prod.fst := by
  simp only [t2GreedyDescent, hd, Option.bind_eq_bind, Option.bind_some,
    greedyLayers_exec (c := (t, d)) fuel targetLevel startLevel hd, Option.map_map]
  cases greedyLayers S fuel targetLevel startLevel (t, d) <;> rfl

/-! ### Where it ends -/

theorem reads_layered (hr : S.index.WellFormed) (hm : S.m = S.index.metaPage.m) :
    (S.index.layered S.kernels.etupDistance).Reads (fun _ => True) (readDistance S)
      (readNeighbors S) where
  distance := by
    rintro t ⟨e, he, -⟩
    refine .read fun _ _ => ?_
    rw [t2Distance, he, Relation.layered_distance he]
    rfl
  neighbors := by
    rintro lc t ⟨e, he, hl⟩
    refine .read fun _ _ => ?_
    rw [he, Option.bind_some, hm]
    exact getNeighbors_layer hr he hl

/-- **The scan's descent** of a well-formed index. -/
theorem t2GreedyDescent_descends (hr : S.index.WellFormed) (hm : S.m = S.index.metaPage.m)
    {t : Tid} {startLevel : Nat}
    (ht : (S.index.layered S.kernels.etupDistance).On startLevel t) (targetLevel : Nat) :
    ∃ res, (S.index.layered S.kernels.etupDistance).Descends targetLevel startLevel t res fun fuel =>
      t2GreedyDescent S fuel t startLevel targetLevel := by
  obtain ⟨res, h⟩ := (reads_layered hr hm).descends (hr.layered _) targetLevel ht trivial (s := ())
  obtain ⟨e, he, -⟩ := ht
  have hd : t2Distance S t = some (S.kernels.etupDistance e.vec) := by
    rw [t2Distance, he]
    rfl
  refine ⟨res, ?_⟩
  simpa only [t2GreedyDescent_eq _ hd] using h

/-- An index with an entry point has a base-layer entry point. -/
theorem baseEntry_spec (hS : Serves S) (hentry : S.index.metaPage.hasEntry = true) :
    ∃ n₀ base, (∀ fuel ≥ n₀, baseEntry S fuel = some base) ∧
      ∃ e, S.index.element base = some e := by
  obtain ⟨e, he, hlevel⟩ := hS.index.entry hentry
  unfold baseEntry
  by_cases hpos : S.index.metaPage.entryLevel > 0
  · have hon : (S.index.layered S.kernels.etupDistance).On S.index.metaPage.entryLevel.toNat
        S.index.metaPage.entry := ⟨e, he, by omega⟩
    obtain ⟨res, h⟩ := t2GreedyDescent_descends hS.index hS.m hon 0
    obtain ⟨path, hpath, hrun, -⟩ := h.passes
    obtain ⟨e', he', -⟩ := hpath.on_result (hS.index.layered _) hon
    refine ⟨path.length, res, fun fuel hf => ?_, e', he'⟩
    rw [if_pos hpos]
    exact hrun fuel hf
  · exact ⟨0, _, fun _ _ => by rw [if_neg hpos], e, he⟩

/-- The seeded frontier satisfies the invariant. -/
theorem seed_inv {S : Stream V Q D} {base : Tid} {e : ElementTuple V}
    (he : S.index.element base = some e) :
    ∃ s : State H D, seed S base = some s ∧ Inv S base [] s := by
  obtain ⟨d, hd, rfl, hgen⟩ := genuine_loadNode (S := S) base he (.inl rfl)
    (S.settings.scanSingleRead || S.approx)
  have hpushed := Pushed.single S ({ State.empty with visited := [d.indextid] } : State H D) d
  refine ⟨_, by rw [seed, hd]; rfl, ?_⟩
  have hempty : frontier ({ State.empty with visited := [d.indextid] } : State H D) = 0 := by
    simp [frontier, State.empty, H.contents_allocate]
  have hR : H.contents ({ State.empty with visited := [d.indextid] } : State H D).R = 0 := by
    simp [State.empty, H.contents_allocate]
  have hRx : H.contents (push S ({ State.empty with visited := [d.indextid] } : State H D) d).Rx =
      0 := by
    rw [hpushed.Rx]
    simp [State.empty, H.contents_allocate]
  have hfrontier := hpushed.frontier
  rw [hempty, add_zero] at hfrontier
  have hresults := hpushed.R
  rw [hR, add_zero] at hresults
  have hexpanded : (push S ({ State.empty with visited := [d.indextid] } : State H D) d).expanded =
      [] := hpushed.expanded
  have hgens : ∀ d' ∈ [d], ∃ e, Genuine S d.indextid d' e := fun d' hd' =>
    ⟨e, List.mem_singleton.mp hd' ▸ hgen⟩
  show Inv S d.indextid [] (push S { State.empty with visited := [d.indextid] } d)
  refine ⟨by simp, fun t => ?_, fun t ht => ?_, ?_, fun c hc => ?_, fun c hc => ?_, fun c hc => ?_,
    ?_, fun _ => hRx, ?_, ?_, hpushed.exhausted⟩
  · rw [hexpanded]
    simp [Discovered]
  · rw [visited_push, List.mem_singleton] at ht
    exact ht ▸ Relation.ReflTransGen.refl
  · rw [hfrontier, hexpanded, visited_push]
    simp only [tids, Multiset.map_coe, Multiset.coe_nil, add_zero]
    rfl
  · rw [hfrontier] at hc
    obtain rfl := List.mem_singleton.mp (Multiset.mem_coe.mp hc)
    exact ⟨e, hgen.candidate⟩
  · rw [hresults] at hc
    obtain ⟨d', hd', rfl⟩ := List.mem_map.mp (Multiset.mem_coe.mp hc)
    obtain ⟨hmem, hp⟩ := List.mem_filter.mp hd'
    obtain rfl := List.mem_singleton.mp hmem
    exact ⟨Relation.ReflTransGen.refl, e, hgen.result hp⟩
  · rw [hRx] at hc
    exact absurd hc (Multiset.notMem_zero c)
  · rw [hRx, hresults, tids_results hgens, visited_push]
    simp [tids]
  · rw [hpushed.nExpansions]
    exact Nat.zero_le _
  · rw [hexpanded, hpushed.nExpansions]
    rfl

end PgAcorn.Scan
