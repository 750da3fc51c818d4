import PgAcorn.Build.Insert
import PgAcorn.Build.Memory
import PgAcorn.Library.Greedy
import PgAcorn.Library.Sequential

/-! Choosing a node's neighbors, in memory and on disk.

`acorn_mem_select_diverse` goes by node numbers, `acorn_select_diverse_tids` by tuple
identifiers whose vectors it reads first. Both are the diversity heuristic of the
library, so both meet its specification and make the same choice of corresponding
candidates (`selectDiverse_spec`). -/
namespace PgAcorn.Build
open Library

section
variable {I V Q D : Type} [CDouble D]

/-! ### In memory -/

/-- How far apart two candidates are, by their nodes' vectors. -/
def MemBuild.apart (mb : MemBuild V) (dist : V → V → D) (a b : Fin mb.nNodes × D) : D :=
  dist (mb.nodes a.1).vec (mb.nodes b.1).vec

/-- `acorn_mem_select_diverse`, of candidates with their distances to the base. -/
def memSelectDiverse (mb : MemBuild V) (dist : V → V → D) (cands : List (Fin mb.nNodes × D))
    (mMax : Nat) : List (Fin mb.nNodes) :=
  (diverse (mb.apart dist) Prod.snd mMax cands).map Prod.fst

/-! ### On disk -/

/-- The elements of some identifiers, read one after the other. -/
theorem readElements_exec {s : Disk I V Q} {α : Type} {tid : α → Tid} {elem : α → ElementTuple V}
    {l : List α} (h : ∀ a ∈ l, s.relation.element (tid a) = some (elem a)) :
    (l.mapM fun a => readElement (tid a)).exec s = some (l.map elem, s) :=
  Prog.exec_mapM fun a ha => Prog.exec_read (h a ha)

variable {oc : Opclass V Q D}

/-- The choice among elements that are there. -/
theorem selectDiverseTids_exec {s : Disk I V Q} {α : Type} {tid : α → Tid} {d : α → D}
    {elem : α → ElementTuple V} {l : List α}
    (h : ∀ a ∈ l, s.relation.element (tid a) = some (elem a)) (mMax : Nat) :
    (selectDiverseTids oc (l.map fun a => (tid a, d a)) mMax).exec s =
      some ((diverse (fun a b => oc.dist (elem a).vec (elem b).vec) d mMax l).map
        fun a => (tid a, d a), s) := by
  unfold selectDiverseTids
  split
  · rename_i hfew
    rw [diverse, if_pos (by simpa using hfew)]
    rfl
  · have hread : (l.mapM ((fun c => readElement c.1) ∘ fun a => (tid a, d a))).exec s =
        some (l.map elem, s) := readElements_exec h
    rw [List.mapM_map]
    simp only [Prog.bind_eq, Prog.exec_bind, hread, Option.bind_some]
    have hzip : (l.map fun a => (tid a, d a)).zip ((l.map elem).map ElementTuple.vec) =
        l.map fun a => ((tid a, d a), (elem a).vec) := by
      rw [List.map_map, List.zip_map']
      rfl
    rw [hzip, diverse_map (fun a => ((tid a, d a), (elem a).vec)) (fun _ _ => rfl) fun _ => rfl,
      List.map_map]
    rfl

/-! ### The specification of both -/

/-- **Diverse selection meets its specification in both implementations**: what is
chosen in memory is the greedy choice with refill, and on disk the same choice is made
of corresponding candidates. -/
theorem selectDiverse_spec (hD : Ordered D) (mb : MemBuild V) (oc : Opclass V Q D)
    (cands : List (Fin mb.nNodes × D)) (hnodup : (cands.map Prod.fst).Nodup) (mMax : Nat) :
    ∃ chosen, DiverseSelection (mb.apart oc.dist) Prod.snd mMax cands chosen ∧
      memSelectDiverse mb oc.dist cands mMax = chosen.map Prod.fst ∧
      (chosen.map Prod.fst).Nodup ∧
      ∀ (s : Disk I V Q) (tid : Fin mb.nNodes → Tid),
        (∀ c ∈ cands, ∃ e, s.relation.element (tid c.1) = some e ∧ e.vec = (mb.nodes c.1).vec) →
        (selectDiverseTids oc (cands.map fun c => (tid c.1, c.2)) mMax).exec s =
          some (chosen.map fun c => (tid c.1, c.2), s) := by
  refine ⟨diverse (mb.apart oc.dist) Prod.snd mMax cands, diverse_selection hD hnodup.of_map, rfl,
    nodup_of_subperm (subperm_map (diverse_subperm cands) Prod.fst) hnodup, fun s tid hread => ?_⟩
  -- the candidates with their elements
  choose elem helem hvec using hread
  have hexec := @selectDiverseTids_exec I V Q D _ oc s _ (fun c => tid c.1.1) (fun c => c.1.2)
    (fun c => elem c.1 c.2) cands.attach (fun c _ => helem c.1 c.2) mMax
  have hchosen : diverse (mb.apart oc.dist) Prod.snd mMax (cands.attach.map Subtype.val) =
      (diverse (fun a b => oc.dist (elem a.1 a.2).vec (elem b.1 b.2).vec) (fun c => c.1.2) mMax
        cands.attach).map Subtype.val :=
    diverse_map Subtype.val (fun a b => by rw [hvec, hvec]; rfl) (fun _ => rfl) cands.attach
  rw [List.attach_map_subtype_val] at hchosen
  have hcands : cands.attach.map (fun c => (tid c.1.1, c.1.2)) = cands.map fun c => (tid c.1, c.2) :=
    List.attach_map_val (f := fun c : Fin mb.nNodes × D => (tid c.1, c.2))
  rw [hchosen, List.map_map, ← hcands]
  exact hexec

/-- Four nodes on a line, and where their elements are. -/
def fourNodes : MemBuild Int where
  mEff := 2
  payloadM := 2
  nNodes := 4
  nodes id := ⟨0, 0, [0, 4, 5, -6].getD id 0, List.replicate 4 none⟩
  slots _ := rfl

/-- The other three around the first, nearest first. -/
def lineCands : List (Fin fourNodes.nNodes × Int) :=
  [((1 : Fin 4), 4), ((2 : Fin 4), 5), ((3 : Fin 4), 6)]

/-- The second is not chosen: it is nearer to the first. -/
example : (memSelectDiverse fourNodes (fun a b : Int => |a - b|) lineCands 2).map Fin.val =
    [1, 3] := by decide

theorem selectDiverse_spec_line : ∃ chosen : List (Fin fourNodes.nNodes × Int),
    DiverseSelection (fourNodes.apart fun a b : Int => |a - b|) Prod.snd 2 lineCands chosen ∧
      memSelectDiverse fourNodes (fun a b : Int => |a - b|) lineCands 2 = chosen.map Prod.fst := by
  obtain ⟨chosen, h, hmem, -⟩ := selectDiverse_spec (I := Unit) (Q := Unit) ordered_int fourNodes
    ⟨fun a b : Int => |a - b|, fun _ => 8, fun _ => 1, fun _ _ => ()⟩ lineCands (by decide) 2
  exact ⟨chosen, h, hmem⟩

end

end PgAcorn.Build
