import PgAcorn.Build.Runs

/-! What concurrent inserts can lose.

An insert reads the entry point once. Two that find none, or one that finds none
while another's element is already there, are born without edges: `no_birth_isolated`
says that nothing else does that, `two_first_inserts` that this does.

A reverse edge is chosen from a copy of its range and written later. If the range
is then as it was copied, or the slot is still empty, edges are only ever replaced
by the policy of a full range (`reverse_edge_kept`); `lost_reverse_edge` is the
other case. -/
namespace PgAcorn.Build
open Library

section
variable {I V Q D : Type} [DecidableEq I] [CDouble D] [Inhabited Q]
variable {H : PairingHeap} {oc : Opclass V Q D} {natts fuel : Nat} {r : Relation V Q}
  {updated : List Tid} {opts : RdOptions} {p p' : Inserts I V Q}

/-! ### Births -/

/-- The event is a read of the meta page that found no entry point. -/
def Event.entryless : Event I → Bool
  | .read _ found _ => !found
  | _ => false

/-- An insert that finds no entry point is the first to do so, and no element is
there. -/
def FirstEntryless (p : Inserts I V Q) : Action I RdOptions (Row V) → Prop
  | .act i => (∃ found vacant, .read i found vacant ∈ p.shared.history.events) ∨
      p.shared.relation.metaPage.hasEntry = true ∨
      p.shared.relation.vacant = true ∧ ∀ e ∈ p.shared.history.events, e.entryless = false
  | a => SameStride p a

omit [DecidableEq I] [Inhabited Q] in
theorem FirstEntryless.sameStride {a : Action I RdOptions (Row V)} (h : FirstEntryless p a) :
    SameStride p a := by
  cases a with
  | act i => trivial
  | alter settings => trivial
  | start i row => exact h

omit [DecidableEq I] [Inhabited Q] in
/-- What an operation adds to the reads of the meta page. -/
theorem Effect.read_event {G : MetaPage} {i j : I} {s s' : Disk I V Q} {found vacant : Bool}
    (h : Effect oc G i s s') (he : .read j found vacant ∈ s'.history.events) :
    .read j found vacant ∈ s.history.events ∨
      j = i ∧ found = s.relation.metaPage.hasEntry ∧ vacant = s.relation.vacant ∧
        ∀ f v, .read i f v ∉ s.history.events := by
  cases h with
  | read hnew =>
    obtain heq | he := List.mem_cons.mp he
    · injection heq with hj hf hv
      exact .inr ⟨hj, hf, hv, hnew⟩
    · exact .inl he
  | neighbor | element => exact .inl (List.mem_of_ne_of_mem (by simp) he)
  | _ => exact .inl he

/-- Under the condition at most one insert finds no entry point. -/
theorem lone_of_runs (h : Startable r updated)
    (hborn : ∀ t e, r.element t = some e → r.layerNeighbors 0 t = [] →
      ∀ u e', r.element u = some e' → u = t)
    (hrun : Runs (step H oc natts fuel) FirstEntryless (.start opts r updated) p) :
    Lone p.shared.history.events := by
  induction hrun with
  | refl => exact ⟨fun i v he => (nomatch he), fun i j v v' he => (nomatch he)⟩
  | @tail q q' hrun hlast ih =>
    obtain ⟨a, hok, hstep⟩ := hlast
    have horderly := orderly_of_runs oc h (fun _ : True => hborn)
      (fun _ _ hok => FirstEntryless.sameStride hok) hrun
    cases a with
    | alter settings =>
      obtain rfl := Option.some.inj hstep
      exact ih
    | start i row =>
      revert hstep
      rw [step, Pool.step]
      cases q.threads i with
      | none =>
        rintro ⟨⟩
        exact ih
      | some prog => exact fun hstep => by cases hstep
    | act i =>
      obtain ⟨-, heff, -⟩ := horderly.act hstep
      -- a new read of a meta page without entry point is the first one
      have hnew : ∀ j v, .read j false v ∈ q'.shared.history.events →
          .read j false v ∈ q.shared.history.events ∨ j = i ∧ v = true ∧
            ∀ e ∈ q.shared.history.events, e.entryless = false := by
        intro j v he
        obtain hold | ⟨rfl, hf, hv, hnone⟩ := heff.read_event he
        · exact .inl hold
        · obtain ⟨f, v', hread⟩ | hhas | ⟨hvacant, hfirst⟩ := hok
          · exact absurd hread (hnone f v')
          · rw [hhas] at hf
            cases hf
          · exact .inr ⟨rfl, hv.trans hvacant, hfirst⟩
      have hclash : ∀ j v, .read j false v ∈ q.shared.history.events →
          ¬ ∀ e ∈ q.shared.history.events, e.entryless = false := fun j v he hfirst => by
        have := hfirst _ he
        cases this
      refine ⟨fun j v he => ?_, fun j k v v' hj hk => ?_⟩
      · obtain hold | ⟨-, hv, -⟩ := hnew j v he
        · exact ih.1 j v hold
        · exact hv
      · obtain hj | ⟨rfl, -, hfirst⟩ := hnew j v hj
        · obtain hk | ⟨-, -, hfirst⟩ := hnew k v' hk
          · exact ih.2 j k v v' hj hk
          · exact absurd hfirst (hclash j v hj)
        · obtain hk | ⟨rfl, -, -⟩ := hnew k v' hk
          · exact absurd hfirst (hclash k v' hk)
          · rfl

/-- **No insert is born unreachable**: once all inserts have ended, every element of
an index of two or more has layer-0 neighbors. -/
theorem no_birth_isolated (h : Startable r updated)
    (hborn : ∀ t e, r.element t = some e → r.layerNeighbors 0 t = [] →
      ∀ u e', r.element u = some e' → u = t)
    (hrun : Runs (step H oc natts fuel) FirstEntryless (.start opts r updated) p)
    (hquiet : p.Quiet) (htwo : ∃ t u e e', t ≠ u ∧ p.shared.relation.element t = some e ∧
      p.shared.relation.element u = some e') :
    ∀ t e, p.shared.relation.element t = some e →
      p.shared.relation.layerNeighbors 0 t ≠ [] := by
  intro t e he hnil
  have horderly := orderly_of_runs oc h (fun _ : True => hborn)
    (fun _ _ hok => FirstEntryless.sameStride hok) hrun
  obtain hsole | ⟨j, u, o, ho, hmem⟩ :=
    horderly.1.born trivial (lone_of_runs h hborn hrun) he hnil
  · obtain ⟨u, v, eu, ev, hne, hu, hv⟩ := htwo
    exact hne ((hsole u eu hu).trans (hsole v ev hv).symm)
  · -- the insert that offered it an edge has ended
    have hpaid : Paid j p.shared := by
      cases hthread : p.threads j with
      | none =>
        have hidle := horderly.2 j
        rw [hthread] at hidle
        exact absurd rfl (hidle _ ho)
      | some prog => exact (horderly.ended hthread (hquiet j prog hthread)).elim (fun ⟨_, hp⟩ => hp) id
    exact hpaid u o ho t hmem hnil

instance (p : Inserts I V Q) : (a : Action I RdOptions (Row V)) → Decidable (FirstEntryless p a)
  | .act i => inferInstanceAs (Decidable
      ((∃ found vacant, .read i found vacant ∈ p.shared.history.events) ∨
        p.shared.relation.metaPage.hasEntry = true ∨
        p.shared.relation.vacant = true ∧ ∀ e ∈ p.shared.history.events, e.entryless = false))
  | .start i row => inferInstanceAs (Decidable (SameStride p (.start i row)))
  | .alter settings => inferInstanceAs (Decidable (SameStride p (.alter settings)))

end

theorem pointIndex_element (t : Tid) : pointIndex.element t = none := by
  rw [Relation.element]
  unfold pointIndex
  rw [emptyIndex_item]

/-- What a finished pair of inserts shows of itself: their ends and their elements. -/
def pairEnds (p : Inserts (Fin 3) Int Int) : List Bool × List Tid :=
  ((List.finRange 3).map fun i => match p.threads i with
    | none => true
    | some (.pure _) => true
    | _ => false, [⟨1, 2⟩, ⟨1, 4⟩].filter fun t => (p.shared.relation.element t).isSome)

theorem pairEnds_spec {p : Inserts (Fin 3) Int Int}
    (h : pairEnds p = ([true, true, true], [⟨1, 2⟩, ⟨1, 4⟩])) :
    p.Quiet ∧ ∃ t u e e', t ≠ u ∧ p.shared.relation.element t = some e ∧
      p.shared.relation.element u = some e' := by
  injection h with hends helems
  refine ⟨fun i prog hi => ?_, ?_⟩
  · have hmem : (match p.threads i with
        | none => true
        | some (.pure _) => true
        | _ => false) ∈ ([true, true, true] : List Bool) :=
      hends ▸ List.mem_map_of_mem (List.mem_finRange i)
    rw [hi] at hmem
    revert hmem
    cases prog <;> simp [Prog.Ended]
  · have hone : (⟨1, 2⟩ : Tid) ∈ [⟨1, 2⟩, ⟨1, 4⟩].filter fun t : Tid =>
        (p.shared.relation.element t).isSome := by
      rw [helems]
      simp
    have htwo : (⟨1, 4⟩ : Tid) ∈ [⟨1, 2⟩, ⟨1, 4⟩].filter fun t : Tid =>
        (p.shared.relation.element t).isSome := by
      rw [helems]
      simp
    obtain ⟨e, he⟩ := Option.isSome_iff_exists.mp (List.mem_filter.mp hone).2
    obtain ⟨e', he'⟩ := Option.isSome_iff_exists.mp (List.mem_filter.mp htwo).2
    exact ⟨⟨1, 2⟩, ⟨1, 4⟩, e, e', by decide, he, he'⟩

/-- A second point that starts once the first one is the entry point. -/
theorem no_birth_isolated_pair : ∃ p : Inserts (Fin 3) Int Int,
    pairEnds p = ([true, true, true], [⟨1, 2⟩, ⟨1, 4⟩]) ∧
      ∀ t e, p.shared.relation.element t = some e →
        p.shared.relation.layerNeighbors 0 t ≠ [] := by
  have hexec : ((exec (fun p a => if FirstEntryless p a then pointStep p a else none)
      (.start pointOptions pointIndex [])
      (.start 0 (pointRow 0) :: .start 1 (pointRow 3) :: acts 0 6 ++ acts 1 12)).map pairEnds) =
        some ([true, true, true], [⟨1, 2⟩, ⟨1, 4⟩]) := by
    decide +kernel
  obtain ⟨p, hp, hends⟩ := Option.map_eq_some_iff.mp hexec
  refine ⟨p, hends, no_birth_isolated startable_pointIndex (fun t e he => ?_) (runs_of_exec hp)
    (pairEnds_spec hends).1 (pairEnds_spec hends).2⟩
  rw [pointIndex_element] at he
  cases he

/-- Two inserts that both find an empty index: neither element gets an edge. -/
theorem two_first_inserts : Startable pointIndex [] ∧ ∃ p : Inserts (Fin 3) Int Int,
    Runs pointStep SameStride (.start pointOptions pointIndex []) p ∧ p.Quiet ∧
      (∃ t u e e', t ≠ u ∧ p.shared.relation.element t = some e ∧
        p.shared.relation.element u = some e') ∧
      ¬ ∀ t e, p.shared.relation.element t = some e →
        p.shared.relation.layerNeighbors 0 t ≠ [] := by
  have hexec : ((exec (fun p a => if SameStride p a then pointStep p a else none)
      (.start pointOptions pointIndex [])
      (.start 0 (pointRow 0) :: .start 1 (pointRow 3) :: acts 0 1 ++ acts 1 1 ++ acts 0 5 ++
        acts 1 5)).map fun p => (pairEnds p, p.shared.relation.layerNeighbors 0 ⟨1, 2⟩)) =
        some (([true, true, true], [⟨1, 2⟩, ⟨1, 4⟩]), []) := by
    decide +kernel
  obtain ⟨p, hp, heq⟩ := Option.map_eq_some_iff.mp hexec
  injection heq with hends hslots
  obtain ⟨hquiet, htwo⟩ := pairEnds_spec hends
  refine ⟨startable_pointIndex, p, runs_of_exec hp, hquiet, htwo, fun h => ?_⟩
  have hsome : (p.shared.relation.element ⟨1, 2⟩).isSome = true := by
    have hmem : (⟨1, 2⟩ : Tid) ∈ (pairEnds p).2 := by
      rw [hends]
      simp
    exact (List.mem_filter.mp hmem).2
  obtain ⟨e, he⟩ := Option.isSome_iff_exists.mp hsome
  exact h ⟨1, 2⟩ e he hslots

/-! ### Reverse edges -/

section
variable {I V Q D : Type} [DecidableEq I] [CDouble D] [Inhabited Q]
variable {H : PairingHeap} {oc : Opclass V Q D} {natts fuel : Nat} {r : Relation V Q}
  {updated : List Tid} {opts : RdOptions} {p p' : Inserts I V Q}

/-- The slot was still empty, or the range as it was copied. -/
def SlotWrite.Fresh (w : SlotWrite) : Prop :=
  (∃ t ∈ w.found[w.target]?, t.isValid = false) ∨ w.found = w.copied

/-- The stride is that of the index, and a reverse edge that is written is fresh. -/
def FreshWrites (H : PairingHeap) (oc : Opclass V Q D) (natts fuel : Nat) (p : Inserts I V Q)
    (a : Action I RdOptions (Row V)) : Prop :=
  SameStride p a ∧ ∀ p' ∈ step H oc natts fuel p a, ∀ w ∈ p'.shared.history.writes,
    w ∈ p.shared.history.writes ∨ w.Fresh

/-- The write replaced `u` by the policy of a full range, of the range as it was
then. -/
structure SlotWrite.Evicts (oc : Opclass V Q D) (r : Relation V Q) (w : SlotWrite) (u : Tid) :
    Prop where
  removed : w.found[w.target]? = some u
  full : ∀ t ∈ w.found, t.isValid = true
  policy : w.ByPolicy oc r w.found

omit [DecidableEq I] [Inhabited Q] in
/-- A fresh write only takes a slot that was in use by the policy. -/
theorem SlotWrite.Fresh.evicts {r : Relation V Q} {w : SlotWrite} {u : Tid} (h : w.Fresh)
    (hchosen : w.Chosen oc r) (hu : u.isValid = true) (hfound : w.found[w.target]? = some u) :
    w.Evicts oc r u := by
  have hsame : w.found = w.copied := by
    obtain ⟨t, ht, hempty⟩ | hsame := h
    · rw [hfound] at ht
      obtain rfl := Option.some.inj ht
      rw [hu] at hempty
      cases hempty
    · exact hsame
  have hpolicy : w.ByPolicy oc r w.copied := by
    obtain ⟨t, ht, hempty⟩ | hpolicy := hchosen
    · rw [← hsame, hfound] at ht
      obtain rfl := Option.some.inj ht
      rw [hu] at hempty
      cases hempty
    · exact hpolicy
  rw [← hsame] at hpolicy
  refine ⟨hfound, ?_, hpolicy⟩
  -- all of the range are elements
  obtain ⟨-, -, -, es, -, -, -, hes, -⟩ := hpolicy
  exact ((List.forall₂_and_left _ _).mp (hes.imp fun t e he =>
    ⟨(Relation.isValid_of_item (Relation.element_some.mp he)).1, he⟩)).1

omit [DecidableEq I] [Inhabited Q] in
/-- **What one operation does to the slots of a tuple**: it keeps them, but for the
one whose write it records. -/
theorem Effect.slots_kept {G : MetaPage} {i : I} {s s' : Disk I V Q} (h : Effect oc G i s s')
    {t : Tid} {n : NeighborTuple Q} (hn : s.relation.neighbor t = some n) :
    ∃ ws n', s'.history.writes = ws ++ s.history.writes ∧ s'.relation.neighbor t = some n' ∧
      ∀ (k : Nat) (u : Tid), n.tids[k]? = some u → n'.tids[k]? = some u ∨
        ∃ w ∈ ws, w.nbrtid = t ∧ w.start + w.target = k ∧ w.found[w.target]? = some u := by
  cases h with
  | skip | access | read | update => exact ⟨[], n, rfl, hn, fun _ _ => .inl⟩
  | cont ha | neighbor ha | element ha =>
    exact ⟨[], n, rfl, ha.neighbor_of_neighbor hn, fun _ _ => .inl⟩
  | @slot v x en eu layer j o a w hen heu howner hne hl hlevel hj hnew ha hw hchosen =>
    by_cases ht : t = en.neighbortid
    · subst ht
      refine ⟨[w], ⟨n.tids.set ((en.level - layer) * G.m + j) x, n.inline?⟩, rfl, ?_,
        fun k u hk => ?_⟩
      · show (s.relation.update _ _).neighbor _ = _
        rw [Relation.neighbor_some, Relation.item_update, if_pos rfl, Relation.neighbor_some.mp hn]
        rfl
      · by_cases hslot : k = (en.level - layer) * G.m + j
        · subst hslot
          exact .inr ⟨w, by simp, hw.nbrtid, hw.slot, (hw.found n hn).trans hk⟩
        · exact .inl ((List.getElem?_set_ne (Ne.symm hslot)).trans hk)
    · refine ⟨[w], n, rfl, ?_, fun _ _ => .inl⟩
      show (s.relation.update _ _).neighbor _ = _
      rw [neighbor_update_of_ne _ ht, hn]
  | @entry v idx entry =>
    obtain ⟨n', hn', htids⟩ := sameTids_setEntry s.relation v idx entry t n hn
    exact ⟨[], n', rfl, hn', fun _ _ hk => .inl (htids ▸ hk)⟩

/-- The actions of a pool that change nothing shared. -/
theorem shared_of_step {a : Action I RdOptions (Row V)} (h : step H oc natts fuel p a = some p')
    (ha : ∀ i, a ≠ .act i) : p'.shared = p.shared := by
  cases a with
  | alter settings =>
    obtain rfl := Option.some.inj h
    rfl
  | start i row =>
    revert h
    rw [step, Pool.step]
    cases p.threads i with
    | none =>
      rintro ⟨⟩
      rfl
    | some prog => exact fun h => by cases h
  | act i => exact absurd rfl (ha i)

/-- All writes so far were fresh. -/
theorem fresh_of_runs
    (hrun : Runs (step H oc natts fuel) (FreshWrites H oc natts fuel) (.start opts r updated) p) :
    ∀ w ∈ p.shared.history.writes, w.Fresh := by
  induction hrun with
  | refl => exact fun w hw => by cases hw
  | @tail q q' _ hlast ih =>
    obtain ⟨a, hok, hstep⟩ := hlast
    exact fun w hw => (hok.2 q' hstep w hw).elim (ih w) id

/-- **No reverse edge is lost**: while reverse edges are written fresh, an edge in a
slot stays there until a full range's policy replaces it. -/
theorem reverse_edge_kept (h : Startable r updated)
    (hrun : Runs (step H oc natts fuel) (FreshWrites H oc natts fuel) (.start opts r updated) p)
    (hrun' : Runs (step H oc natts fuel) (FreshWrites H oc natts fuel) p p') {t u : Tid}
    {n : NeighborTuple Q} {k : Nat} (hn : p.shared.relation.neighbor t = some n)
    (hk : n.tids[k]? = some u) (hu : u.isValid = true) :
    ∃ ws n', p'.shared.history.writes = ws ++ p.shared.history.writes ∧
      p'.shared.relation.neighbor t = some n' ∧
        (n'.tids[k]? = some u ∨ ∃ w ∈ ws, w.nbrtid = t ∧ w.start + w.target = k ∧
          w.Evicts oc p'.shared.relation u) := by
  induction hrun' with
  | refl => exact ⟨[], n, rfl, hn, .inl hk⟩
  | @tail q q' hrun' hlast ih =>
    have hfresh := fresh_of_runs (hrun.trans (hrun'.tail hlast))
    have horderly := orderly_of_runs oc h (fun hfalse : False => hfalse.elim)
      (fun _ _ hok => hok.1) (hrun.trans hrun')
    obtain ⟨a, -, hstep⟩ := hlast
    obtain ⟨ws, n', hws, hn', hkept⟩ := ih
    by_cases ha : ∃ i, a = .act i
    · obtain ⟨i, rfl⟩ := ha
      obtain ⟨hinv', heff, -⟩ := horderly.act hstep
      have hframe := heff.frame horderly.1
      obtain ⟨ws', n'', hws', hn'', hslots⟩ := heff.slots_kept hn'
      refine ⟨ws' ++ ws, n'', by rw [hws', hws, List.append_assoc], hn'', ?_⟩
      obtain hkept | ⟨w, hw, hnbr, hslot, hevicts⟩ := hkept
      · refine (hslots k u hkept).imp_right ?_
        rintro ⟨w, hw, hnbr, hslot, hfound⟩
        have hmem : w ∈ q'.shared.history.writes := hws' ▸ List.mem_append_left _ hw
        exact ⟨w, List.mem_append_left _ hw, hnbr, hslot,
          (hfresh w hmem).evicts (hinv'.writes w hmem) hu hfound⟩
      · exact .inr ⟨w, List.mem_append_right _ hw, hnbr, hslot, hevicts.removed, hevicts.full,
          hevicts.policy.mono hframe.element⟩
    · have hsame := shared_of_step hstep fun i hi => ha ⟨i, hi⟩
      rw [hsame]
      exact ⟨ws, n', hws, hn', hkept⟩

instance (w : SlotWrite) : Decidable w.Fresh :=
  inferInstanceAs (Decidable ((∃ t ∈ w.found[w.target]?, t.isValid = false) ∨ w.found = w.copied))

instance (p : Inserts I V Q) (a : Action I RdOptions (Row V)) :
    Decidable (FreshWrites H oc natts fuel p a) :=
  inferInstanceAs (Decidable (SameStride p a ∧ ∀ p' ∈ step H oc natts fuel p a,
    ∀ w ∈ p'.shared.history.writes, w ∈ p.shared.history.writes ∨ w.Fresh))

end

/-- Slot 0 of the first element's neighbor tuple. -/
def firstSlot (p : Inserts (Fin 3) Int Int) : Option Tid :=
  (p.shared.relation.neighbor ⟨1, 1⟩).bind fun n => n.tids[0]?

theorem firstSlot_spec {p : Inserts (Fin 3) Int Int} {t : Tid} (h : firstSlot p = some t) :
    ∃ n, p.shared.relation.neighbor ⟨1, 1⟩ = some n ∧ n.tids[0]? = some t :=
  Option.bind_eq_some_iff.mp h

/-- A third point that is inserted behind the second: the first keeps its edge. -/
theorem reverse_edge_kept_pair : ∃ p p' : Inserts (Fin 3) Int Int,
    firstSlot p = some ⟨1, 4⟩ ∧ firstSlot p' = some ⟨1, 4⟩ ∧
    ∃ ws n', p'.shared.history.writes = ws ++ p.shared.history.writes ∧
      p'.shared.relation.neighbor ⟨1, 1⟩ = some n' ∧
        (n'.tids[0]? = some ⟨1, 4⟩ ∨ ∃ w ∈ ws, w.nbrtid = ⟨1, 1⟩ ∧ w.start + w.target = (0 : Nat) ∧
          w.Evicts points p'.shared.relation ⟨1, 4⟩) := by
  have hexec : ((exec (fun p a => if FreshWrites PairingHeap.list points 1 20 p a then pointStep p a
        else none) (.start pointOptions pointIndex [])
      (.start 0 (pointRow 0) :: .start 1 (pointRow 3) :: .start 2 (pointRow 4) :: acts 0 6 ++
        acts 1 12)).bind fun p =>
      ((exec (fun p a => if FreshWrites PairingHeap.list points 1 20 p a then pointStep p a
        else none) p (acts 2 18)).map fun p' => (firstSlot p, firstSlot p'))) =
        some (some ⟨1, 4⟩, some ⟨1, 4⟩) := by
    decide +kernel
  obtain ⟨p, hp, hmap⟩ := Option.bind_eq_some_iff.mp hexec
  obtain ⟨p', hp', heq⟩ := Option.map_eq_some_iff.mp hmap
  injection heq with hslot hslot'
  obtain ⟨n, hn, hk⟩ := firstSlot_spec hslot
  exact ⟨p, p', hslot, hslot', reverse_edge_kept startable_pointIndex (runs_of_exec hp)
    (runs_of_exec hp') hn hk rfl⟩

/-- Two inserts that copy the same empty range of the first element: the second one
to write takes the slot of the other, with three slots empty. -/
theorem lost_reverse_edge : Startable pointIndex [] ∧ ∃ p p' : Inserts (Fin 3) Int Int,
    Runs pointStep SameStride (.start pointOptions pointIndex []) p ∧
    Runs pointStep SameStride p p' ∧ firstSlot p = some ⟨1, 4⟩ ∧
    ¬ ∃ ws n', p'.shared.history.writes = ws ++ p.shared.history.writes ∧
      p'.shared.relation.neighbor ⟨1, 1⟩ = some n' ∧
        (n'.tids[0]? = some ⟨1, 4⟩ ∨ ∃ w ∈ ws, w.nbrtid = ⟨1, 1⟩ ∧ w.start + w.target = (0 : Nat) ∧
          w.Evicts points p'.shared.relation ⟨1, 4⟩) := by
  have hexec : ((exec (fun p a => if SameStride p a then pointStep p a else none)
      (.start pointOptions pointIndex [])
      (.start 0 (pointRow 0) :: .start 1 (pointRow 3) :: .start 2 (pointRow 4) :: acts 0 6 ++
        acts 1 9 ++ acts 2 11 ++ acts 1 3)).bind fun p =>
      ((exec (fun p a => if SameStride p a then pointStep p a else none) p (acts 2 1)).map fun p' =>
        (firstSlot p, firstSlot p', p'.shared.history.writes.all fun w =>
          w.found.any fun t => !t.isValid))) = some (some ⟨1, 4⟩, some ⟨1, 6⟩, true) := by
    decide +kernel
  obtain ⟨p, hp, hmap⟩ := Option.bind_eq_some_iff.mp hexec
  obtain ⟨p', hp', heq⟩ := Option.map_eq_some_iff.mp hmap
  injection heq with hslot hrest
  injection hrest with hslot' hroom
  refine ⟨startable_pointIndex, p, p', runs_of_exec hp, runs_of_exec hp', hslot, ?_⟩
  rintro ⟨ws, n', hws, hn', hk | ⟨w, hw, -, -, hevicts⟩⟩
  · obtain ⟨n, hn, hk'⟩ := firstSlot_spec hslot'
    obtain rfl := Option.some.inj (hn.symm.trans hn')
    exact absurd (Option.some.inj (hk'.symm.trans hk)) (by decide)
  · -- every range that was written had room
    have hmem : w ∈ p'.shared.history.writes := hws ▸ List.mem_append_left _ hw
    obtain ⟨t, ht, hempty⟩ := List.any_eq_true.mp (List.all_eq_true.mp hroom w hmem)
    rw [hevicts.full t ht] at hempty
    cases hempty

end PgAcorn.Build
