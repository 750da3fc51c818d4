import PgAcorn.Build.ScanProgram

/-! A scan while an index is inserted into and vacuumed.

A scan holds copies of what it read some page accesses before. What it knows of an element then
still holds later, for elements stay and change by their marks only (`upkeep`). So its state stays
sane whatever goes on between two of its reads: what is queued as a result passes the keys, what is
rescored or returned was not marked when the scan began, and nothing is a result twice, as it was
entered in the visited set when it was discovered (`Sane`). The rows it returns in the end are
right (`scan_among_commands`). -/
namespace PgAcorn.Build
open Library
open PgAcorn.Filter (Fmgr ScanKey Datum)
open PgAcorn.Scan

namespace Concurrent

/-! ### What a scan holds -/

section
variable {I V Q D : Type} {oc : Opclass V Q D} {dims : Nat}

/-- The element is there and passes the scan's keys. -/
def Passing (S : Stream V Q D) (u : Tid) (s : Disk I V Q) : Prop :=
  ∃ e, s.relation.element u = some e ∧
    Filter.evalFilter S.fmgr S.settings.scanDirectFilter S.keys e.filterVal = true

/-- The element has the heap row and a filter value that passes, and was not marked on `r₁`. -/
def Eligible (pass : Datum → Bool) (r₁ r : Relation V Q) (u t : Tid) : Prop :=
  ∃ e, r.element u = some e ∧ e.heaptid = t ∧ pass e.filterVal = true ∧
    ∀ e₁, r₁.element u = some e₁ → e₁.deleted = false

theorem Eligible.later {pass : Datum → Bool} {r₁ r r' : Relation V Q} {u t : Tid}
    (hlater : Outlives r r') (h : Eligible pass r₁ r u t) : Eligible pass r₁ r' u t := by
  obtain ⟨e, he, hheap, hpass, hlive⟩ := h
  obtain ⟨e', he', hsame, -⟩ := hlater _ _ (Relation.element_some.mp he)
  obtain ⟨-, hheaps, -, hfilter, -⟩ := ElementTuple.fields_of_unmarked hsame
  refine ⟨e', he', ?_, by rw [hfilter, hpass], hlive⟩
  rw [← hheap, ElementTuple.heaptid, ElementTuple.heaptid, hheaps]

/-- What a scan that began on `s₁` may return. -/
def Returnable (s₁ : Disk I V Q) (S : Stream V Q D) (u t : Tid) (s : Disk I V Q) : Prop :=
  Eligible (Filter.evalFilter S.fmgr S.settings.scanDirectFilter S.keys) s₁.relation s.relation u t

variable {s₁ s s' : Disk I V Q} {S : Stream V Q D}

theorem Passing.later {u : Tid} (hlater : Outlives s.relation s'.relation)
    (h : Passing S u s) : Passing S u s' := by
  obtain ⟨e, he, hpass⟩ := h
  obtain ⟨e', he', hsame, -⟩ := hlater _ _ (Relation.element_some.mp he)
  exact ⟨e', he', by rw [(ElementTuple.fields_of_unmarked hsame).2.2.2.1, hpass]⟩

theorem Returnable.later {u t : Tid} (hlater : Outlives s.relation s'.relation)
    (h : Returnable s₁ S u t s) : Returnable s₁ S u t s' := Eligible.later hlater h

/-- An element that is not marked now was not when the scan began. -/
theorem Passing.returnable {u : Tid} {e : ElementTuple V} (hlater : Outlives s₁.relation s.relation)
    (h : Passing S u s) (he : s.relation.element u = some e) (hlive : e.deleted = false) :
    Returnable s₁ S u e.heaptid s := by
  obtain ⟨e', he', hpass⟩ := h
  obtain rfl := Option.some.inj (he.symm.trans he')
  refine ⟨e, he, rfl, hpass, fun e₁ he₁ => ?_⟩
  obtain ⟨e₂, he₂, -, hd⟩ := hlater _ _ (Relation.element_some.mp he₁)
  obtain rfl := Option.some.inj (he.symm.trans he₂)
  by_contra hmarked
  rw [hd (Bool.of_not_eq_false hmarked)] at hlive
  cases hlive

variable [CDouble D] {H : PairingHeap}

/-- What is queued as a result. -/
def results (st : State H D) : Multiset (Elem D) := H.contents st.R + H.contents st.Rx

/-- The elements that are results, or were returned with their heap rows. -/
def taken (us : List (Tid × Tid)) (st : State H D) : Multiset Tid :=
  (results st).map Elem.indextid + (us.map Prod.fst : List Tid)

/-- The state of a scan that began on `s₁` and has returned the elements `us`. -/
structure Sane (s₁ : Disk I V Q) (S : Stream V Q D) (us : List (Tid × Tid)) (st : State H D)
    (s : Disk I V Q) : Prop where
  began : Outlives s₁.relation s.relation
  passing : ∀ x ∈ H.contents st.R, Passing S x.indextid s
  exact : S.approx = false → ∀ x ∈ H.contents st.R, Returnable s₁ S x.indextid x.heaptid s
  rescored : ∀ x ∈ H.contents st.Rx, Returnable s₁ S x.indextid x.heaptid s
  returned : ∀ v ∈ us, Returnable s₁ S v.1 v.2 s
  visited : st.visited.Nodup
  /-- Nothing is a result twice. -/
  once : (taken us st).Nodup
  seen : ∀ u ∈ taken us st, u ∈ st.visited

variable {us : List (Tid × Tid)} {st : State H D}

theorem Sane.later (hlater : Outlives s.relation s'.relation) (h : Sane s₁ S us st s) :
    Sane s₁ S us st s' :=
  ⟨h.began.trans hlater, fun x hx => (h.passing x hx).later hlater,
    fun hex x hx => (h.exact hex x hx).later hlater, fun x hx => (h.rescored x hx).later hlater,
    fun v hv => (h.returned v hv).later hlater, h.visited, h.once, h.seen⟩

/-- Candidates and counters do not matter. -/
theorem Sane.same {st' : State H D} (h : Sane s₁ S us st s) (hR : st'.R = st.R)
    (hRx : st'.Rx = st.Rx) (hvisited : st'.visited = st.visited) : Sane s₁ S us st' s := by
  have htaken : taken us st' = taken us st := by
    unfold taken results
    rw [hR, hRx]
  refine ⟨h.began, ?_, ?_, ?_, h.returned, ?_, ?_, ?_⟩
  · rw [hR]
    exact h.passing
  · rw [hR]
    exact h.exact
  · rw [hRx]
    exact h.rescored
  · rw [hvisited]
    exact h.visited
  · rw [htaken]
    exact h.once
  · rw [htaken, hvisited]
    exact h.seen

/-- More elements are visited. -/
theorem Sane.marked (h : Sane s₁ S us st s) {visited : List Tid} (hnodup : visited.Nodup)
    (hmore : ∀ t ∈ st.visited, t ∈ visited) : Sane s₁ S us { st with visited := visited } s :=
  ⟨h.began, h.passing, h.exact, h.rescored, h.returned, hnodup, h.once,
    fun u hu => hmore u (h.seen u hu)⟩

theorem stays_sane (us : List (Tid × Tid)) (st : State H D) :
    (upkeep (I := I) oc dims).Stays (Sane s₁ S us st) := fun hlater h => h.later hlater

/-- What a scan knows of an element it discovers. -/
structure Told (s₁ : Disk I V Q) (S : Stream V Q D) (d : Discovery D) (s : Disk I V Q) : Prop where
  passing : passes S d = true → Passing S d.indextid s
  exact : S.approx = false → passes S d = true → Returnable s₁ S d.indextid d.heaptid s

/-- **A discovery is queued**, of an element that is visited and no result yet. -/
theorem Sane.push (h : Sane s₁ S us st s) {d : Discovery D} (hd : Told s₁ S d s)
    (hvisited : d.indextid ∈ st.visited) (hnew : d.indextid ∉ taken us st) :
    Sane s₁ S us (push S st d) s ∧ (push S st d).visited = st.visited ∧
      ∀ u ∈ taken us (push S st d), u = d.indextid ∨ u ∈ taken us st := by
  have hR : H.contents (Scan.push S st d).R =
      (if passes S d then {d.result} else 0) + H.contents st.R := by
    unfold Scan.push
    dsimp only
    split <;> split <;> simp_all [H.contents_add]
  have hRx : (Scan.push S st d).Rx = st.Rx := by
    unfold Scan.push
    dsimp only
    split <;> split <;> rfl
  have htaken : taken us (Scan.push S st d) =
      (if passes S d then {d.indextid} else 0) + taken us st := by
    unfold taken results
    rw [hR, hRx]
    split
    · simp [Discovery.result, add_assoc]
    · simp
  -- a result is the new one, if it passes, or was there
  have hresult : ∀ x ∈ H.contents (Scan.push S st d).R,
      (passes S d = true ∧ x = d.result) ∨ x ∈ H.contents st.R := by
    intro x hx
    rw [hR] at hx
    split at hx
    · rename_i hpass
      exact (Multiset.mem_add.mp hx).imp_left fun hx => ⟨hpass, Multiset.mem_singleton.mp hx⟩
    · rw [zero_add] at hx
      exact .inr hx
  have hfrom : ∀ u ∈ taken us (Scan.push S st d), u = d.indextid ∨ u ∈ taken us st := by
    intro u hu
    rw [htaken] at hu
    split at hu
    · exact (Multiset.mem_add.mp hu).imp_left Multiset.mem_singleton.mp
    · rw [zero_add] at hu
      exact .inr hu
  refine ⟨⟨h.began, fun x hx => ?_, fun hex x hx => ?_, by rw [hRx]; exact h.rescored,
    h.returned, by rw [visited_push]; exact h.visited, ?_, fun u hu => ?_⟩, visited_push S st d,
    hfrom⟩
  · obtain ⟨hpass, rfl⟩ | hx := hresult x hx
    · exact hd.passing hpass
    · exact h.passing x hx
  · obtain ⟨hpass, rfl⟩ | hx := hresult x hx
    · exact hd.exact hex hpass
    · exact h.exact hex x hx
  · rw [htaken]
    split
    · rw [Multiset.singleton_add, Multiset.nodup_cons]
      exact ⟨hnew, h.once⟩
    · rw [zero_add]
      exact h.once
  · rw [visited_push]
    obtain rfl | hu := hfrom u hu
    · exact hvisited
    · exact h.seen u hu

end
/-! ### A scan heeds the upkeep -/

section
variable {I V Q D : Type} [CDouble D] {H : PairingHeap} {oc : Opclass V Q D} {dims : Nat}
  {s₁ : Disk I V Q} {S : Stream V Q D} {us : List (Tid × Tid)} {pre : Disk I V Q → Prop}

omit [CDouble D] in
/-- What an element page tells. -/
theorem t2LoadNode_heeds (hpre : (upkeep oc dims).Stays pre)
    (hbegan : ∀ s, pre s → Outlives s₁.relation s.relation) (hasNbr : Bool) (t : Tid) :
    (upkeep oc dims).Heeds pre (t2LoadNode S hasNbr t) fun d s => pre s ∧ d.indextid = t ∧
      Told s₁ S d s ∧ (d.deleted = false → Passing S t s → Returnable s₁ S t d.heaptid s) := by
  refine .read hpre fun s d _ hs hd => ?_
  obtain ⟨e, he, rfl⟩ := Option.map_eq_some_iff.mp hd
  have he : s.relation.element t = some e := he
  have hlive : e.deleted = false → Passing S t s → Returnable s₁ S t e.heaptid s :=
    fun hd hpass => hpass.returnable (hbegan s hs) he hd
  refine ⟨hs, rfl, ⟨fun hpass => ?_, fun _ hpass => ?_⟩, hlive⟩
  all_goals
    unfold passes at hpass
    obtain ⟨hnot, hfilter⟩ := (Bool.and_eq_true _ _).mp hpass
    have hpassing : Passing S t s := ⟨e, he, hfilter⟩
  · exact hpassing
  · exact hlive (by simpa using hnot) hpassing

/-- One neighbor. -/
theorem expandNeighbor_heeds (st : State H D) (t : Tid) :
    (upkeep oc dims).Heeds (Sane s₁ S us st) (expandNeighbor S st t) fun st' =>
      Sane s₁ S us st' := by
  unfold expandNeighbor
  rw [visit_eq]
  split
  · exact .pure fun s hs => hs
  dsimp only
  by_cases hmem : t ∈ st.visited
  · have hsame : markVisited st.visited t = st.visited := by
      unfold markVisited
      rw [if_pos hmem]
    rw [hsame, if_pos (by simp [hmem])]
    exact .pure fun s hs => hs
  have hnew : markVisited st.visited t = t :: st.visited := by
    unfold markVisited
    rw [if_neg hmem]
  rw [hnew, if_neg (by simp [hmem])]
  -- the element is visited now, and no result yet
  have hmark : ∀ s, Sane s₁ S us st s →
      Sane s₁ S us { st with visited := t :: st.visited } s ∧
        t ∉ taken us { st with visited := t :: st.visited } := by
    intro s hs
    have hnot : t ∉ taken us st := fun ht => hmem (hs.seen t ht)
    exact ⟨hs.marked (List.nodup_cons.mpr ⟨hmem, hs.visited⟩)
      fun u hu => List.mem_cons_of_mem t hu, hnot⟩
  refine .bind ((t2LoadNode_heeds (fun hlater hs => ⟨hs.1.later hlater, hs.2⟩)
    (fun s hs => hs.1.began) S.settings.scanSingleRead t).weaken hmark) fun d =>
      .pure fun s hs => ?_
  obtain ⟨⟨hsane, hnot⟩, rfl, htold, -⟩ := hs
  exact (hsane.push htold List.mem_cons_self hnot).1

omit [CDouble D] in
theorem candidateNbr_heeds (hpre : (upkeep oc dims).Stays pre) (ce : Elem D) :
    (upkeep oc dims).Heeds pre (candidateNbr S ce) fun _ => pre := by
  unfold candidateNbr
  split
  · exact .pure fun s hs => hs
  · exact upkeep_of_keeps hpre (.read _)

theorem t2StreamExpand_heeds (st : State H D) (ce : Elem D) :
    (upkeep oc dims).Heeds (Sane s₁ S us st) (t2StreamExpand S st ce) fun st' =>
      Sane s₁ S us st' := by
  refine .bind (candidateNbr_heeds (stays_sane us st) ce) fun nbr => ?_
  refine .bind (upkeep_of_keeps (stays_sane us st) (.read _)) fun neighbors => ?_
  exact .foldlM_todo (J := fun _ st' => Sane s₁ S us st')
    (fun st' t _ => expandNeighbor_heeds st' t) neighbors st

/-! ### Inline -/

/-- A walk from a visited set: its candidates are newly visited, and the entries it goes by are
right. -/
structure WalkSane (oc : Opclass V Q D) (dims : Nat) (visited : List Tid) (w : Walk Q)
    (s : Disk I V Q) : Prop where
  perm : w.visited.Perm (w.cands.map Prod.fst ++ visited)
  nodup : visited.Nodup → w.visited.Nodup
  entries : ∀ c ∈ w.cands, ∀ e, c.2 = some e →
    Describes oc dims e s.relation ∧ e.indextid = c.1

variable {visited : List Tid} {w : Walk Q} {s s' : Disk I V Q}

omit [CDouble D] in
theorem WalkSane.later (hlater : Outlives s.relation s'.relation)
    (h : WalkSane oc dims visited w s) : WalkSane oc dims visited w s' :=
  ⟨h.perm, h.nodup, fun c hc e he =>
    ⟨(h.entries c hc e he).1.later hlater, (h.entries c hc e he).2⟩⟩

omit [CDouble D] in
theorem WalkSane.visitSlot (h : WalkSane oc dims visited w s) (t : Tid)
    (oe : Option (InlineEntry Q))
    (he : ∀ e, oe = some e → Describes oc dims e s.relation ∧ e.indextid = t) :
    WalkSane oc dims visited (w.visitSlot t oe) s := by
  unfold Walk.visitSlot visitOnce markVisited
  split
  · exact h
  dsimp only
  by_cases hmem : t ∈ w.visited
  · simp only [hmem, decide_true, Bool.not_true, Bool.not_false, if_true]
    exact h
  · simp only [hmem, decide_false, Bool.not_false, Bool.not_true, Bool.false_eq_true, if_false]
    refine ⟨?_, fun hn => List.nodup_cons.mpr ⟨hmem, h.nodup hn⟩, fun c hc e hce => ?_⟩
    · rw [List.map_append, List.append_assoc]
      exact (List.Perm.cons t h.perm).trans List.perm_middle.symm
    · obtain hc | hc := List.mem_append.mp hc
      · exact h.entries c hc e hce
      · obtain rfl := List.mem_singleton.mp hc
        exact he e hce

omit [CDouble D] in
/-- One chunk, whose valid entries are right. -/
theorem WalkSane.walkChunk (h : WalkSane oc dims visited w s) (tids : List Tid)
    {chunk : InlineChunk Q}
    (hchunk : ∀ e ∈ chunk.entries, e.valid = true → Describes oc dims e s.relation) :
    WalkSane oc dims visited (walkChunk tids w chunk) s := by
  unfold Scan.walkChunk
  generalize List.range' chunk.start _ = js
  induction js generalizing w with
  | nil => exact h
  | cons j js ih =>
    rw [List.foldl_cons]
    apply ih
    unfold walkSlot
    split
    · exact h
    · cases tids[j]? with
      | none => exact ⟨h.perm, h.nodup, h.entries⟩
      | some t =>
        have hcovered : WalkSane oc dims visited { w with covered := j :: w.covered } s :=
          ⟨h.perm, h.nodup, h.entries⟩
        refine hcovered.visitSlot t _ fun e he => ?_
        obtain ⟨hmem, hv, hid⟩ := entryFor_some he
        exact ⟨hchunk e hmem hv, hid⟩

omit [CDouble D] in
theorem WalkSane.walkRest (h : WalkSane oc dims visited w s) (tids : List Tid) :
    WalkSane oc dims visited (walkRest tids w) s := by
  unfold Scan.walkRest
  induction List.range tids.length generalizing w with
  | nil => exact h
  | cons j js ih =>
    rw [List.foldl_cons]
    apply ih
    split
    · exact h
    · exact h.visitSlot _ none fun e he => by cases he

omit [CDouble D] in
/-- The chain of chunks, each read when the walk gets to it. -/
theorem walkChain_heeds (hpre : (upkeep oc dims).Stays pre) (tids : List Tid) (fuel : Nat)
    (next : Tid) (w : Walk Q) :
    (upkeep oc dims).Heeds (fun s => pre s ∧ WalkSane oc dims visited w s)
      (walkChain (I := I) tids fuel next w) fun w' s => pre s ∧ WalkSane oc dims visited w' s := by
  induction fuel generalizing next w with
  | zero => exact .diverge
  | succ fuel ih =>
    unfold walkChain
    split
    · exact .pure fun s hs => hs
    have hread : (upkeep oc dims).Heeds (fun s => pre s ∧ WalkSane oc dims visited w s)
        (Prog.read fun s : Disk I V Q => s.relation.item next) fun x s =>
          (∀ c, x = .cont c → ∀ e ∈ c.entries, e.valid = true → Describes oc dims e s.relation) ∧
            pre s ∧ WalkSane oc dims visited w s := by
      refine .read (fun hlater hs => ⟨hpre hlater hs.1, hs.2.later hlater⟩) fun s x hinv hs hx => ?_
      refine ⟨fun c hc e he hv => ?_, hs⟩
      have hcoherent : Coherent oc dims s.relation := hinv
      exact hcoherent.describes (.cont (hc ▸ hx) he) hv
    refine .bind hread fun x => ?_
    cases x with
    | cont c =>
      exact (ih c.next _).weaken fun s hs => ⟨hs.2.1, hs.2.2.walkChunk tids (hs.1 c rfl)⟩
    | element e => exact .pure fun s hs => hs.2
    | neighbor n => exact .pure fun s hs => hs.2

end

section
variable {I V Q D : Type} [CDouble D] {H : PairingHeap} {oc : Opclass V Q D} {dims : Nat}
  {s₁ s s' : Disk I V Q} {S : Stream V Q D} {us : List (Tid × Tid)} {st st' : State H D}

/-- What is left to do of a walk's candidates. -/
structure Queueing (oc : Opclass V Q D) (dims : Nat) (s₁ : Disk I V Q) (S : Stream V Q D)
    (us : List (Tid × Tid)) (todo : List (Tid × Option (InlineEntry Q))) (st : State H D)
    (s : Disk I V Q) : Prop where
  sane : Sane s₁ S us st s
  nodup : (todo.map Prod.fst).Nodup
  fresh : ∀ c ∈ todo, c.1 ∈ st.visited ∧ c.1 ∉ taken us st
  entries : ∀ c ∈ todo, ∀ e, c.2 = some e → Describes oc dims e s.relation ∧ e.indextid = c.1

variable {todo : List (Tid × Option (InlineEntry Q))} {c : Tid × Option (InlineEntry Q)}

theorem Queueing.later (hlater : Outlives s.relation s'.relation)
    (h : Queueing oc dims s₁ S us todo st s) : Queueing oc dims s₁ S us todo st s' :=
  ⟨h.sane.later hlater, h.nodup, h.fresh, fun c hc e he =>
    ⟨(h.entries c hc e he).1.later hlater, (h.entries c hc e he).2⟩⟩

/-- One candidate is queued. -/
theorem Queueing.push (h : Queueing oc dims s₁ S us (c :: todo) st s) {d : Discovery D}
    (hid : d.indextid = c.1) (hd : Told s₁ S d s) :
    Queueing oc dims s₁ S us todo (push S st d) s := by
  obtain ⟨hvisited, hnew⟩ := h.fresh c List.mem_cons_self
  rw [← hid] at hvisited hnew
  obtain ⟨hsane, hsame, htaken⟩ := h.sane.push hd hvisited hnew
  have hnodup := h.nodup
  rw [List.map_cons, List.nodup_cons] at hnodup
  refine ⟨hsane, hnodup.2, fun c' hc' => ?_, fun c' hc' =>
    h.entries c' (List.mem_cons_of_mem c hc')⟩
  obtain ⟨hvisited', hnew'⟩ := h.fresh c' (List.mem_cons_of_mem c hc')
  rw [hsame]
  refine ⟨hvisited', fun hmem => ?_⟩
  obtain heq | hmem := htaken _ hmem
  · exact hnodup.1 (List.mem_map.mpr ⟨c', hc', heq.trans hid⟩)
  · exact hnew' hmem

omit [CDouble D] in
/-- An entry that is right tells an approximate scan enough. -/
theorem told_ofEntry (happrox : S.approx = true) {entry : InlineEntry Q}
    (h : Describes oc dims entry s.relation) : Told s₁ S (Discovery.ofEntry S entry) s := by
  refine ⟨fun hpass => ?_, fun hex => ?_⟩
  · obtain ⟨e, he, -, -, -, hfilter, -⟩ := h
    obtain ⟨-, hpass⟩ := (Bool.and_eq_true _ _).mp hpass
    refine ⟨e, he, ?_⟩
    rw [← hfilter]
    exact hpass
  · rw [happrox] at hex
    cases hex

theorem pushCand_heeds (happrox : S.approx = true) (st : State H D)
    (c : Tid × Option (InlineEntry Q)) (todo : List (Tid × Option (InlineEntry Q))) :
    (upkeep oc dims).Heeds (Queueing oc dims s₁ S us (c :: todo) st) (pushCand S st c)
      fun st' => Queueing oc dims s₁ S us todo st' := by
  unfold pushCand
  split
  · rename_i entry hentry
    refine .pure fun s hs => ?_
    obtain ⟨hright, hid⟩ := hs.entries c List.mem_cons_self entry hentry
    exact hs.push hid (told_ofEntry happrox hright)
  · refine .bind (t2LoadNode_heeds (fun hlater hs => hs.later hlater) (fun s hs => hs.sane.began)
      true c.1) fun d => .pure fun s hs => ?_
    exact hs.1.push hs.2.1 hs.2.2.1

omit [CDouble D] in
/-- The slots and the primary chunk. -/
theorem readSlots_heeds {pre : Disk I V Q → Prop} (hpre : (upkeep oc dims).Stays pre)
    (nbrtid : Tid) :
    (upkeep oc dims).Heeds pre (readSlots S nbrtid) fun slots s =>
      (∀ e ∈ slots.2.entries, e.valid = true → Describes oc dims e s.relation) ∧ pre s := by
  refine .read hpre fun s slots hinv hs hslots => ⟨fun e he hv => ?_, hs⟩
  have hcoherent : Coherent oc dims s.relation := hinv
  obtain ⟨ntup, hntup, hslots⟩ := Option.bind_eq_some_iff.mp hslots
  obtain ⟨tids, -, hslots⟩ := Option.bind_eq_some_iff.mp hslots
  obtain ⟨chunk, hchunk, heq⟩ := Option.bind_eq_some_iff.mp hslots
  obtain rfl := Option.some.inj heq
  exact hcoherent.describes (.primary hntup hchunk he) hv

omit [CDouble D] in
theorem WalkSane.init {visited : List Tid} {s : Disk I V Q} :
    WalkSane oc dims visited (⟨visited, [], []⟩ : Walk Q) s :=
  ⟨.refl _, fun h => h, fun c hc => by cases hc⟩

/-- What the walk found can be queued. -/
theorem WalkSane.queueing {w : Walk Q} (h : WalkSane oc dims st.visited w s)
    (hs : Sane s₁ S us st s) :
    Queueing oc dims s₁ S us w.cands { st with visited := w.visited } s := by
  have hnodup := h.nodup hs.visited
  have hsplit := List.nodup_append.mp (h.perm.nodup_iff.mp hnodup)
  have hmore : ∀ t ∈ st.visited, t ∈ w.visited :=
    fun t ht => h.perm.mem_iff.mpr (List.mem_append_right _ ht)
  refine ⟨hs.marked hnodup hmore, hsplit.1, fun c hc => ⟨?_, fun hmem => ?_⟩, h.entries⟩
  · exact h.perm.mem_iff.mpr (List.mem_append_left _ (List.mem_map_of_mem hc))
  · exact hsplit.2.2 c.1 (List.mem_map_of_mem hc) c.1 (hs.seen c.1 hmem) rfl

theorem t2StreamExpandInline_heeds (happrox : S.approx = true) (fuel : Nat) (st : State H D)
    (ce : Elem D) :
    (upkeep oc dims).Heeds (Sane s₁ S us st) (t2StreamExpandInline S fuel st ce) fun st' =>
      Sane s₁ S us st' := by
  have hstays : (upkeep oc dims).Stays (Sane s₁ S us st) := stays_sane us st
  refine .bind (candidateNbr_heeds hstays ce) fun nbr => ?_
  refine .bind (readSlots_heeds hstays nbr.2) fun slots => ?_
  refine .bind ((walkChain_heeds hstays slots.1 fuel slots.2.next _).weaken fun s hs =>
    ⟨hs.2, WalkSane.init.walkChunk slots.1 hs.1⟩) fun w => ?_
  refine Regime.Heeds.consequence (Regime.Heeds.weaken (.foldlM_todo (J := fun todo st' =>
    Queueing oc dims s₁ S us todo st') (fun st' c todo => pushCand_heeds happrox st' c todo)
      (walkRest slots.1 w).cands _) fun s hs => ?_) fun st' s hs => hs.sane
  exact (hs.2.walkRest slots.1).queueing hs.1

/-! ### The loop -/

theorem expand_heeds (hinline : S.inlineOn = true → S.approx = true) (fuel : Nat) (st : State H D)
    (ce : Elem D) :
    (upkeep oc dims).Heeds (Sane s₁ S us st) (expand S fuel st ce) fun st' => Sane s₁ S us st' := by
  unfold expand
  split
  · rename_i hon
    exact t2StreamExpandInline_heeds (hinline hon) fuel st ce
  · exact t2StreamExpand_heeds st ce

theorem popCandidate_sane {popped : Elem D × State H D} (h : popCandidate S st = some popped)
    (hs : Sane s₁ S us st s) : Sane s₁ S us popped.2 s := by
  unfold popCandidate at h
  split at h
  all_goals
    obtain ⟨p, -, rfl⟩ := Option.map_eq_some_iff.mp h
    exact hs.same rfl rfl rfl

theorem expandOne_heeds (hinline : S.inlineOn = true → S.approx = true) (fuel : Nat)
    (st : State H D) :
    (upkeep oc dims).Heeds (Sane s₁ S us st) (expandOne S fuel st) fun st' =>
      Sane s₁ S us st' := by
  unfold expandOne
  split
  · exact .diverge
  · rename_i popped hpop
    refine .bind ((expand_heeds hinline fuel popped.2 popped.1).weaken fun s hs =>
      popCandidate_sane hpop hs) fun st' => .pure fun s hs => hs.same rfl rfl rfl

/-- A result that is dropped. -/
theorem Sane.dropped (hs : Sane s₁ S us st s) {R : H.Heap _} {rn : Elem D}
    (hR : H.contents st.R = rn ::ₘ H.contents R) : Sane s₁ S us { st with R := R } s := by
  have htaken : taken us st = rn.indextid ::ₘ taken us { st with R := R } := by
    unfold taken results
    rw [hR, Multiset.cons_add, Multiset.map_cons, Multiset.cons_add]
  have honce := hs.once
  rw [htaken, Multiset.nodup_cons] at honce
  refine ⟨hs.began, fun x hx => hs.passing x ?_, fun hex x hx => hs.exact hex x ?_, hs.rescored,
    hs.returned, hs.visited, honce.2, fun u hu => hs.seen u ?_⟩
  · rw [hR]
    exact Multiset.mem_cons_of_mem hx
  · rw [hR]
    exact Multiset.mem_cons_of_mem hx
  · rw [htaken]
    exact Multiset.mem_cons_of_mem hu

/-- A result that is rescored, under the heap row its page has. -/
theorem Sane.rescore (hs : Sane s₁ S us st s) {R : H.Heap _} {rn : Elem D}
    (hR : H.contents st.R = rn ::ₘ H.contents R) {t : Tid} {d : D} {n : Nat}
    (hd : Returnable s₁ S rn.indextid t s) :
    Sane s₁ S us { st with
      R := R, Rx := H.add st.Rx { rn with distance := d, heaptid := t }, rxCount := n } s := by
  have hdropped := hs.dropped hR
  have htaken : taken us { st with
      R := R, Rx := H.add st.Rx { rn with distance := d, heaptid := t }, rxCount := n } =
      taken us st := by
    unfold taken results
    dsimp only
    rw [hR, H.contents_add, Multiset.cons_add, Multiset.add_cons, Multiset.map_cons,
      Multiset.map_cons]
  refine ⟨hs.began, hdropped.passing, hdropped.exact, fun x hx => ?_, hs.returned, hs.visited,
    by rw [htaken]; exact hs.once, by rw [htaken]; exact hs.seen⟩
  rw [H.contents_add] at hx
  obtain rfl | hx := Multiset.mem_cons.mp hx
  · exact hd
  · exact hs.rescored x hx

theorem t2RerankOne_heeds (st : State H D) :
    (upkeep oc dims).Heeds (Sane s₁ S us st) (t2RerankOne S st) fun st' =>
      Sane s₁ S us st' := by
  unfold t2RerankOne
  split
  · exact .diverge
  · rename_i popped hpop
    have hR := H.removeFirst_some hpop
    refine .bind (t2LoadNode_heeds (stays_sane us st) (fun s hs => hs.began) true
      popped.1.indextid) fun node => ?_
    split
    · exact .pure fun s hs => hs.1.dropped hR
    · rename_i hlive
      refine .pure fun s hs => ?_
      have hpassing := hs.1.passing popped.1 (by rw [hR]; exact Multiset.mem_cons_self _ _)
      exact hs.1.rescore hR (hs.2.2.2 (by simpa using hlive) hpassing)

/-- An exact result is returned. -/
theorem Sane.emitted (hs : Sane s₁ S us st s) (hexact : S.approx = false) {R : H.Heap _}
    {rn : Elem D} (hR : H.contents st.R = rn ::ₘ H.contents R) :
    Sane s₁ S ((rn.indextid, rn.heaptid) :: us) { st with R := R } s := by
  have hdropped := hs.dropped hR
  have htaken : taken us st = taken ((rn.indextid, rn.heaptid) :: us) { st with R := R } := by
    unfold taken results
    dsimp only
    rw [hR, List.map_cons, ← Multiset.cons_coe, Multiset.cons_add, Multiset.map_cons,
      Multiset.cons_add, Multiset.add_cons]
  refine ⟨hs.began, hdropped.passing, hdropped.exact, hs.rescored, fun v hv => ?_, hs.visited,
    htaken ▸ hs.once, htaken ▸ hs.seen⟩
  obtain rfl | hv := List.mem_cons.mp hv
  · exact hs.exact hexact rn (by rw [hR]; exact Multiset.mem_cons_self _ _)
  · exact hs.returned v hv

/-- A rescored result is returned. -/
theorem Sane.emittedRescored (hs : Sane s₁ S us st s) {Rx : H.Heap _} {rn : Elem D} {n : Nat}
    (hRx : H.contents st.Rx = rn ::ₘ H.contents Rx) :
    Sane s₁ S ((rn.indextid, rn.heaptid) :: us) { st with Rx := Rx, rxCount := n } s := by
  have htaken : taken us st =
      taken ((rn.indextid, rn.heaptid) :: us) { st with Rx := Rx, rxCount := n } := by
    unfold taken results
    dsimp only
    rw [hRx, List.map_cons, ← Multiset.cons_coe, Multiset.add_cons, Multiset.add_cons,
      Multiset.map_cons, Multiset.cons_add]
  refine ⟨hs.began, hs.passing, hs.exact, fun x hx => hs.rescored x ?_, fun v hv => ?_, hs.visited,
    htaken ▸ hs.once, htaken ▸ hs.seen⟩
  · rw [hRx]
    exact Multiset.mem_cons_of_mem hx
  · obtain rfl | hv := List.mem_cons.mp hv
    · exact hs.rescored rn (by rw [hRx]; exact Multiset.mem_cons_self _ _)
    · exact hs.returned v hv

/-- What an iteration leaves: after an emission, one more element is returned. -/
def Left (s₁ : Disk I V Q) (S : Stream V Q D) (us : List (Tid × Tid))
    (r : Scan.Outcome × State H D) (s : Disk I V Q) : Prop :=
  match r.1 with
  | .emit t => ∃ u, Sane s₁ S ((u, t) :: us) r.2 s
  | .continue | .finish => Sane s₁ S us r.2 s

theorem emission_left (hs : Sane s₁ S us st s) : Left s₁ S us (emission S st) s := by
  unfold emission
  have hexhausted : Sane s₁ S us { st with exhausted := true } s := hs.same rfl rfl rfl
  cases happrox : S.approx with
  | true =>
    cases hpop : H.removeFirst st.Rx with
    | none => exact hexhausted
    | some popped => exact ⟨popped.1.indextid, hs.emittedRescored (H.removeFirst_some hpop)⟩
  | false =>
    cases hpop : H.removeFirst st.R with
    | none => exact hexhausted
    | some popped => exact ⟨popped.1.indextid, hs.emitted happrox (H.removeFirst_some hpop)⟩

theorem iterate_heeds (hinline : S.inlineOn = true → S.approx = true) (fuel : Nat)
    (st : State H D) :
    (upkeep oc dims).Heeds (Sane s₁ S us st) (iterate S fuel st) (Left s₁ S us) := by
  unfold iterate
  split
  · exact .bind (expandOne_heeds hinline fuel st) fun st' => .pure fun s hs => hs
  · split
    · exact .bind (t2RerankOne_heeds st) fun st' => .pure fun s hs => hs
    · exact .pure fun s hs => emission_left hs

/-- What a call leaves. -/
def Returned (s₁ : Disk I V Q) (S : Stream V Q D) (us : List (Tid × Tid))
    (r : Option Tid × State H D) (s : Disk I V Q) : Prop :=
  match r.1 with
  | some t => ∃ u, Sane s₁ S ((u, t) :: us) r.2 s
  | none => Sane s₁ S us r.2 s

theorem nextLoop_heeds (hinline : S.inlineOn = true → S.approx = true) (fuel n : Nat)
    (st : State H D) :
    (upkeep oc dims).Heeds (Sane s₁ S us st) (nextLoop S fuel n st) (Returned s₁ S us) := by
  induction n generalizing st with
  | zero => exact .diverge
  | succ n ih =>
    refine .bind (iterate_heeds hinline fuel st) fun r => ?_
    obtain ⟨outcome, st'⟩ := r
    cases outcome with
    | «continue» => exact ih st'
    | emit t => exact .pure fun s hs => hs
    | finish => exact .pure fun s hs => hs

theorem t2StreamNext_heeds (hinline : S.inlineOn = true → S.approx = true) (fuel : Nat)
    (st : State H D) :
    (upkeep oc dims).Heeds (Sane s₁ S us st) (t2StreamNext S fuel st) (Returned s₁ S us) := by
  unfold t2StreamNext
  split
  · exact .pure fun s hs => hs
  · exact nextLoop_heeds hinline fuel fuel st

/-- **All rows of a stream**: each is the heap row of an element of its own. -/
theorem drain_heeds (hinline : S.inlineOn = true → S.approx = true) (fuel n : Nat)
    (st : State H D) :
    (upkeep oc dims).Heeds (Sane s₁ S us st) (drain S fuel n st) fun ts s =>
      ∃ vs : List (Tid × Tid), vs.map Prod.snd = ts ∧ ((vs ++ us).map Prod.fst).Nodup ∧
        ∀ v ∈ vs ++ us, Returnable s₁ S v.1 v.2 s := by
  induction n generalizing st us with
  | zero => exact .diverge
  | succ n ih =>
    refine .bind (t2StreamNext_heeds hinline fuel st) fun r => ?_
    obtain ⟨row, st'⟩ := r
    cases row with
    | none =>
      refine .pure fun s hs => ?_
      have hs : Sane s₁ S us st' s := hs
      exact ⟨[], rfl, (Multiset.nodup_add.mp hs.once).2.1, hs.returned⟩
    | some t =>
      intro s hs
      obtain ⟨u, hs⟩ := hs
      -- the element that was returned is not returned again
      refine (ih st' s hs).bind fun ts => .pure fun s' hrest => ?_
      obtain ⟨vs, hts, hnodup, hvs⟩ := hrest
      have hperm : (((u, t) :: vs) ++ us).Perm (vs ++ (u, t) :: us) := List.perm_middle.symm
      refine ⟨(u, t) :: vs, by rw [List.map_cons, hts], ?_, fun v hv => ?_⟩
      · exact (hperm.map Prod.fst).nodup_iff.mpr hnodup
      · exact hvs v (hperm.mem_iff.mp hv)

end

/-! ### A scan only reads -/

section
variable {I V Q D ρ : Type} [CDouble D] {H : PairingHeap} {S : Stream V Q D}
  {f : Disk I V Q → ρ}

theorem greedyLayer_keeps (lc fuel : Nat) (c : Tid × D) : (greedyLayer S lc fuel c).Keeps f := by
  have hneighbor : ∀ (c : Tid × D × Bool) (t : Tid), (descendNeighbor S c t).Keeps f := by
    intro c t
    unfold descendNeighbor
    split
    · exact .pure c
    · exact .bind (.read _) fun nd => .pure _
  induction fuel generalizing c with
  | zero => trivial
  | succ fuel ih =>
    have hround : (greedyRound S lc c).Keeps f :=
      .bind (.read _) fun e => .bind (.read _) fun neighbors => .foldlM hneighbor neighbors _
    refine .bind hround fun c' => ?_
    split
    · exact ih _
    · exact .pure _

theorem greedyLayers_keeps (fuel target lc : Nat) (c : Tid × D) :
    (greedyLayers S fuel target lc c).Keeps f := by
  induction lc generalizing c with
  | zero => exact .pure c
  | succ lc ih =>
    unfold greedyLayers
    split
    · exact .bind (greedyLayer_keeps (lc + 1) fuel c) fun c' => ih c'
    · exact .pure c

theorem t2GreedyDescent_keeps (fuel : Nat) (t : Tid) (startLevel targetLevel : Nat) :
    (t2GreedyDescent S fuel t startLevel targetLevel).Keeps f :=
  .bind (.read _) fun _ => .bind (greedyLayers_keeps fuel targetLevel startLevel _) fun _ =>
    .pure _

omit [CDouble D] in
theorem candidateNbr_keeps (ce : Elem D) : (candidateNbr S ce).Keeps f := by
  unfold candidateNbr
  split
  · exact .pure _
  · exact .read _

theorem t2StreamExpand_keeps (st : State H D) (ce : Elem D) :
    (t2StreamExpand S st ce).Keeps f := by
  have hneighbor : ∀ (st : State H D) (t : Tid), (expandNeighbor S st t).Keeps f := by
    intro st t
    unfold expandNeighbor
    split
    · exact .pure st
    · dsimp only
      split
      · exact .pure _
      · exact .bind (.read _) fun d => .pure _
  exact .bind (candidateNbr_keeps ce) fun nbr => .bind (.read _) fun neighbors =>
    .foldlM hneighbor neighbors st

omit [CDouble D] in
theorem walkChain_keeps (tids : List Tid) (fuel : Nat) (next : Tid) (w : Walk Q) :
    (walkChain tids fuel next w).Keeps f := by
  induction fuel generalizing next w with
  | zero => trivial
  | succ fuel ih =>
    unfold walkChain
    split
    · exact .pure w
    · refine .bind (.read _) fun x => ?_
      split
      · exact ih _ _
      · exact .pure w

theorem t2StreamExpandInline_keeps (fuel : Nat) (st : State H D) (ce : Elem D) :
    (t2StreamExpandInline S fuel st ce).Keeps f := by
  have hcand : ∀ (st : State H D) (c : Tid × Option (InlineEntry Q)),
      (pushCand S st c).Keeps f := by
    intro st c
    unfold pushCand
    split
    · exact .pure _
    · exact .bind (.read _) fun d => .pure _
  exact .bind (candidateNbr_keeps ce) fun nbr => .bind (.read _) fun slots =>
    .bind (walkChain_keeps _ fuel _ _) fun w => .foldlM hcand _ _

theorem iterate_keeps (fuel : Nat) (st : State H D) : (iterate S fuel st).Keeps f := by
  have hexpand : (expandOne S fuel st).Keeps f := by
    unfold expandOne
    split
    · trivial
    · refine .bind ?_ fun st' => .pure _
      unfold expand
      split
      · exact t2StreamExpandInline_keeps fuel _ _
      · exact t2StreamExpand_keeps _ _
  have hrerank : (t2RerankOne S st).Keeps f := by
    unfold t2RerankOne
    split
    · trivial
    · refine .bind (.read _) fun node => ?_
      split <;> exact .pure _
  unfold iterate
  split
  · exact .bind hexpand fun st' => .pure _
  · split
    · exact .bind hrerank fun st' => .pure _
    · exact .pure _

theorem t2StreamNext_keeps (fuel : Nat) (st : State H D) : (t2StreamNext S fuel st).Keeps f := by
  have hloop : ∀ (n : Nat) (st : State H D), (nextLoop S fuel n st).Keeps f := by
    intro n
    induction n with
    | zero => exact fun _ => trivial
    | succ n ih =>
      intro st
      refine .bind (iterate_keeps fuel st) fun r => ?_
      split
      · exact ih _
      · exact .pure _
      · exact .pure _
  unfold t2StreamNext
  split
  · exact .pure _
  · exact hloop fuel st

theorem drain_keeps (fuel n : Nat) (st : State H D) : (drain S fuel n st).Keeps f := by
  induction n generalizing st with
  | zero => trivial
  | succ n ih =>
    refine .bind (t2StreamNext_keeps fuel st) fun r => ?_
    split
    · exact .bind (ih _) fun ts => .pure _
    · exact .pure _

theorem t2StreamBegin_keeps (fuel : Nat) (p : MetaPage) :
    (t2StreamBegin (H := H) S fuel p).Keeps f := by
  unfold t2StreamBegin
  split
  · exact .pure _
  · have hbase : (baseEntry S fuel p).Keeps f := by
      unfold baseEntry
      split
      · exact t2GreedyDescent_keeps fuel _ _ _
      · exact .pure _
    exact .bind hbase fun base => .bind (.read _) fun d => .pure _

theorem scanIndex_keeps (q : Query V Q D) (fuel : Nat) : (scanIndex H q fuel).Keeps f :=
  .bind (.read _) fun p => .bind (t2StreamBegin_keeps fuel p) fun st => drain_keeps fuel fuel st

end

/-! ### A whole scan -/

section
variable {I V Q D : Type} [CDouble D] {H : PairingHeap} {oc : Opclass V Q D} {dims : Nat}

/-- The rows are those of distinct elements, which pass the keys and were not marked on `r₁`. -/
def Answers (q : Query V Q D) (r₁ r : Relation V Q) (ts : List Tid) : Prop :=
  ∃ vs : List (Tid × Tid), vs.map Prod.snd = ts ∧ (vs.map Prod.fst).Nodup ∧ ∀ v ∈ vs,
    Eligible (Filter.evalFilter q.fmgr q.settings.scanDirectFilter q.keys) r₁ r v.1 v.2

omit [CDouble D] in
theorem stays_answers (q : Query V Q D) (r₁ : Relation V Q) (ts : List Tid) :
    (upkeep (I := I) oc dims).Stays fun s => Answers q r₁ s.relation ts := by
  intro s s' hlater h
  obtain ⟨vs, hts, hnodup, hvs⟩ := h
  exact ⟨vs, hts, hnodup, fun v hv => (hvs v hv).later hlater⟩

theorem taken_init (visited : List Tid) (exhausted : Bool) :
    taken [] { (State.empty : State H D) with visited := visited, exhausted := exhausted } =
      0 := by
  have hR : H.contents (State.empty : State H D).R = 0 := H.contents_allocate _
  have hRx : H.contents (State.empty : State H D).Rx = 0 := H.contents_allocate _
  unfold taken results
  dsimp only
  rw [hR, hRx]
  rfl

/-- Nothing is a result yet. -/
theorem Sane.init {s₁ s : Disk I V Q} {S : Stream V Q D} {visited : List Tid} {exhausted : Bool}
    (hlater : Outlives s₁.relation s.relation) (hnodup : visited.Nodup) :
    Sane s₁ S [] { (State.empty : State H D) with
      visited := visited, exhausted := exhausted } s := by
  have hR : H.contents (State.empty : State H D).R = 0 := H.contents_allocate _
  have hRx : H.contents (State.empty : State H D).Rx = 0 := H.contents_allocate _
  refine ⟨hlater, fun x hx => ?_, fun _ x hx => ?_, fun x hx => ?_, fun v hv => ?_, hnodup, ?_,
    fun u hu => ?_⟩
  · rw [hR] at hx
    exact absurd hx (Multiset.notMem_zero x)
  · rw [hR] at hx
    exact absurd hx (Multiset.notMem_zero x)
  · rw [hRx] at hx
    exact absurd hx (Multiset.notMem_zero x)
  · cases hv
  · rw [taken_init]
    exact Multiset.nodup_zero
  · rw [taken_init] at hu
    exact absurd hu (Multiset.notMem_zero u)

/-- **A scan has begun**: its first element is discovered, if there is one. -/
theorem t2StreamBegin_heeds {s₁ : Disk I V Q} {S : Stream V Q D} (fuel : Nat) (p : MetaPage) :
    (upkeep (I := I) oc dims).Heeds (fun s => Outlives s₁.relation s.relation)
      (t2StreamBegin (H := H) S fuel p) fun st s => Sane s₁ S [] st s := by
  have hstays : (upkeep (I := I) oc dims).Stays fun s => Outlives s₁.relation s.relation :=
    fun hlater hs => hs.trans hlater
  unfold t2StreamBegin
  split
  · exact .pure fun s hs => (Sane.init hs List.nodup_nil)
  have hbase : (upkeep (I := I) oc dims).Heeds (fun s => Outlives s₁.relation s.relation)
      (baseEntry S fuel p) fun _ s => Outlives s₁.relation s.relation := by
    unfold baseEntry
    split
    · exact upkeep_of_keeps hstays (t2GreedyDescent_keeps fuel _ _ _)
    · exact .pure fun s hs => hs
  refine .bind hbase fun base => ?_
  refine .bind (t2LoadNode_heeds hstays (fun s hs => hs) _ base) fun d => .pure fun s hs => ?_
  obtain ⟨hlater, rfl, htold, -⟩ := hs
  have hinit : Sane s₁ S [] { (State.empty : State H D) with
      visited := markVisited [] d.indextid } s := Sane.init hlater (List.nodup_singleton _)
  exact (hinit.push htold List.mem_cons_self (by
    rw [taken_init]
    exact Multiset.notMem_zero _)).1

/-- **All rows of a scan.** -/
theorem scanIndex_heeds (oc : Opclass V Q D) (dims : Nat) (q : Query V Q D) (fuel : Nat)
    (s₁ : Disk I V Q) :
    (upkeep (I := I) oc dims).Heeds (fun s => Outlives s₁.relation s.relation)
      (scanIndex H q fuel) fun ts s => Answers q s₁.relation s.relation ts := by
  have hstays : (upkeep (I := I) oc dims).Stays fun s => Outlives s₁.relation s.relation :=
    fun hlater hs => hs.trans hlater
  refine .bind (upkeep_of_keeps hstays (.read _)) fun p => ?_
  have hinline : (q.ofMeta p).inlineOn = true → (q.ofMeta p).approx = true := by
    intro hon
    rw [Stream.approx, hon]
    rfl
  refine .bind (t2StreamBegin_heeds fuel p) fun st => ?_
  refine (drain_heeds hinline fuel fuel st).consequence fun ts s hs => ?_
  obtain ⟨vs, hts, hnodup, hvs⟩ := hs
  rw [List.append_nil] at hnodup hvs
  exact ⟨vs, hts, hnodup, hvs⟩

end

/-! ### Scans among commands -/

/-- What a backend is asked. -/
inductive Request (V Q D : Type)
  | command (c : Command V)
  | scan (q : Query V Q D)

section
variable {I V Q D : Type} [DecidableEq I] [CDouble D] [Inhabited Q]

/-- Its page accesses, with the rows of a scan. -/
def Request.body (H : PairingHeap) (oc : Opclass V Q D) (natts fuel : Nat) (i : I)
    (opts : RdOptions) : Request V Q D → Prog (Disk I V Q) (List Tid)
  | .command c => do
    let _ ← c.body H oc natts fuel i opts
    pure []
  | .scan q => scanIndex H q fuel

/-- Inserts, vacuums and scans of one index. -/
abbrev Backends (I V Q : Type) := Pool I RdOptions (Disk I V Q) (List Tid)

def Backends.start (opts : RdOptions) (r : Relation V Q) (updated : List Tid) : Backends I V Q :=
  .init opts ⟨r, .start r updated⟩

/-- The options are altered, a request starts, or one page access of a request is done. -/
def host (H : PairingHeap) (oc : Opclass V Q D) (natts fuel : Nat) (p : Backends I V Q) :
    Action I RdOptions (Request V Q D) → Option (Backends I V Q) :=
  p.step fun i opts request => request.body H oc natts fuel i opts

variable {H : PairingHeap} {oc : Opclass V Q D} {natts fuel : Nat} {r : Relation V Q}
  {updated : List Tid} {opts : RdOptions} {p₁ p₂ p₃ : Backends I V Q}

omit [DecidableEq I] in
theorem Request.body_heeds (oc : Opclass V Q D) (dims : Nat) (i : I) (opts : RdOptions)
    (request : Request V Q D) :
    (upkeep (I := I) oc dims).Heeds (fun _ => True) (request.body H oc natts fuel i opts)
      fun _ _ => True := by
  cases request with
  | command c => exact .bind (Build.body_heeds oc dims i opts c) fun _ => .pure fun _ _ => trivial
  | scan q =>
    intro s _
    exact ((scanIndex_heeds oc dims q fuel s).consequence fun _ _ _ => trivial) s
      (Outlives.refl s.relation)

/-- An insert that starts derives the stride that the meta page records. -/
def StrideKept (p : Backends I V Q) : Action I RdOptions (Request V Q D) → Prop
  | .start _ (.command (.insert row)) => row.value.isSome = true →
      mEff p.settings row.defaultGamma = p.shared.relation.metaPage.m
  | _ => True

omit [DecidableEq I] in
/-- What backends do to an index is what their inserts do, but for marks. -/
theorem request_twins : Twins SameButMarks (Reaps fun _ => true) (fun _ _ => True)
    (fun (i : I) opts (request : Request V Q D) => request.body H oc natts fuel i opts)
    (insert H oc natts fuel) StrideKept SameStride where
  start {p q i arg} h hok := by
    cases arg with
    | command c =>
      cases c with
      | insert row =>
        refine .inl ⟨row, fun hvalue => ?_, ?_⟩
        · rw [h.settings, ← h.shared.metaPage]
          exact hok hvalue
        · rw [← Prog.bind_pure (insert H oc natts fuel i p.settings row)]
          exact .bind (similar_insert i p.settings row) fun _ _ _ => .pure trivial
      | vacuum callback =>
        exact .inr (.bind (.bind (silent_bulkdelete fun _ _ => rfl) fun _ => trivial)
          fun _ => trivial)
    | scan query => exact .inr (.of_keeps Reaps.refl (scanIndex_keeps query fuel))
  act _ _ := trivial
  alter _ _ := trivial

/-- The graph is well formed at every instant. -/
theorem intact_of_requests (h : Startable r updated)
    (hrun : Runs (host H oc natts fuel) StrideKept (.start opts r updated) p₁) :
    Intact p₁.shared := by
  obtain ⟨-, q, hq, hfollows⟩ := Follows.run Reaps.refl
    (Follows.init opts (SameButMarks.refl ⟨r, .start r updated⟩)) request_twins hrun
  exact .of_same hfollows.shared (graph_intact h hq)

/-- **A scan among inserts, vacuums and other scans.** When it has ended the graph is well formed,
and the rows it has returned are those of distinct elements, each of which is in the index and
passes the keys, and was not marked when the scan started. -/
theorem scan_among_commands (h : Startable r updated)
    (hcoherent : Coherent oc r.metaPage.dimensions r)
    (hrun : Runs (host H oc natts fuel) StrideKept (.start opts r updated) p₁) {i : I}
    {q : Query V Q D} (hstart : host H oc natts fuel p₁ (.start i (.scan q)) = some p₂)
    (hrun' : Runs (host H oc natts fuel) StrideKept p₂ p₃) {ts : List Tid}
    (hended : p₃.answer i = some ts) :
    Intact p₃.shared ∧ Answers q p₁.shared.relation p₃.shared.relation ts := by
  have hbody : ∀ {p : Backends I V Q} {i : I} {request : Request V Q D},
      StrideKept p (.start i request) →
        (upkeep oc r.metaPage.dimensions).Heeds (upkeep oc r.metaPage.dimensions).inv
          (request.body H oc natts fuel i p.settings) fun _ _ => True :=
    fun _ => (Request.body_heeds oc _ _ _ _).weaken fun _ _ => trivial
  have hstarted : Runs (host H oc natts fuel) StrideKept (.start opts r updated) p₂ :=
    hrun.tail ⟨.start i (.scan q), trivial, hstart⟩
  have hkept : Regime.Kept (upkeep oc r.metaPage.dimensions) p₂ :=
    Regime.run hbody (Regime.Kept.init opts (show (upkeep oc r.metaPage.dimensions).inv
      ⟨r, History.start r updated⟩ from hcoherent)) hstarted
  obtain ⟨hshared, hthread⟩ := Pool.of_start hstart
  have hheeds := scanIndex_heeds (H := H) oc r.metaPage.dimensions q fuel p₁.shared p₂.shared
    (hshared ▸ Outlives.refl _)
  obtain ⟨prog, hprog, hpost⟩ := Regime.thread hbody hkept hrun'
    (fun ts => stays_answers q _ ts) hthread hheeds
  obtain rfl := Option.some.inj (hprog.symm.trans (Pool.threads_of_answer hended))
  exact ⟨intact_of_requests h (hstarted.trans hrun'), hpost⟩

end

/-! ### A scan between -/

/-- Whether the action keeps the stride. -/
instance {I V Q D : Type} (p : Backends I V Q) :
    (a : Action I RdOptions (Request V Q D)) → Decidable (StrideKept p a)
  | .start _ (.command (.insert row)) => inferInstanceAs (Decidable (row.value.isSome = true →
      mEff p.settings row.defaultGamma = p.shared.relation.metaPage.m))
  | .start _ (.command (.vacuum _)) | .start _ (.scan _) | .alter _ | .act _ => .isTrue trivial

attribute [local instance] neZero_three

abbrev pointHost : Backends (Fin 4) Int Int → Action (Fin 4) RdOptions (Request Int Int ExtInt) →
    Option (Backends (Fin 4) Int Int) := host PairingHeap.list points 1 20

/-- `pointHost` where the stride is kept. -/
def pointHosted (p : Backends (Fin 4) Int Int)
    (a : Action (Fin 4) RdOptions (Request Int Int ExtInt)) : Option (Backends (Fin 4) Int Int) :=
  if StrideKept p a then pointHost p a else none

/-- The rows nearest to the origin, read from inline entries. -/
def originQuery : Query Int Int ExtInt :=
  ⟨⟨false, true, true, true, true, true, true, none⟩, Fmgr.builtin,
    ⟨squaredDistance, squaredDistance, fun d _ => d, true⟩, [], 40⟩

/-- `k` page accesses of a backend. -/
def hosted (k : Nat) (i : Fin 4) : List (Action (Fin 4) RdOptions (Request Int Int ExtInt)) :=
  .replicate k (.act i)

/-- A scan starts on one point, goes on when a second one is inserted, and ends when the first one
has been vacuumed: it returns the rows of both. -/
theorem scan_among_commands_pair : ∃ p₁ p₃ : Backends (Fin 4) Int Int,
    (p₃.shared.relation.element ⟨1, 2⟩).map ElementTuple.deleted = some true ∧
      Intact p₃.shared ∧
      Answers originQuery p₁.shared.relation p₃.shared.relation [⟨7, 1⟩, ⟨7, 2⟩] := by
  have hexec : ((exec pointHosted (.start pointOptions inlinePoints [])
      (.start 0 (.command (.insert (pointRow 0))) :: hosted 6 0)).bind fun p₁ =>
      (pointHost p₁ (.start 1 (.scan originQuery))).bind fun p₂ =>
      (exec pointHosted p₂ (hosted 2 1 ++
        .start 2 (.command (.insert ⟨some 3, 0, ⟨7, 2⟩, 0, 1⟩)) :: hosted 15 2 ++ hosted 3 1 ++
        .start 3 (.command (.vacuum fun t => t == ⟨7, 1⟩)) :: hosted 2 3 ++ hosted 1 1)).map
          fun p₃ => ((p₃.shared.relation.element ⟨1, 2⟩).map ElementTuple.deleted,
            p₃.answer 1)) = some (some true, some [⟨7, 1⟩, ⟨7, 2⟩]) := by
    decide +kernel
  obtain ⟨p₁, hp₁, hexec⟩ := Option.bind_eq_some_iff.mp hexec
  obtain ⟨p₂, hp₂, hexec⟩ := Option.bind_eq_some_iff.mp hexec
  obtain ⟨p₃, hp₃, hsummary⟩ := Option.map_eq_some_iff.mp hexec
  obtain ⟨hmarked, hended⟩ := Prod.mk.inj hsummary
  exact ⟨p₁, p₃, hmarked, scan_among_commands
    (startable_emptyIndex (by decide) (by decide) (by decide) 1 true)
    (coherent_emptyIndex points 2 2 1 true) (runs_of_exec hp₁) hp₂ (runs_of_exec hp₃) hended⟩

end Concurrent

end PgAcorn.Build
