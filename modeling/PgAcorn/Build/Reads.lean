import PgAcorn.Build.Insert
import PgAcorn.Library.Sequential

/-! What only reads the index.

Up to its first append, and where a reverse edge is chosen, `acorn_insert_element` reads:
the accesses are recorded, the relation is left as it is. -/
namespace PgAcorn.Build
open Library
open PgAcorn.Filter (Datum)

section
variable {I V Q D : Type}

theorem readMeta_keeps (i : I) : (readMeta i : Prog (Disk I V Q) MetaPage).Keeps Disk.relation := by
  apply Prog.Keeps.lift
  intro s b s' h
  cases h
  rfl

theorem readElement_keeps (t : Tid) :
    (readElement t : Prog (Disk I V Q) (ElementTuple V)).Keeps Disk.relation := .read _

theorem copySlots_keeps (nbrtid : Tid) (layer : Nat) (start : Int) (len : Nat) (whole : Bool) :
    (copySlots nbrtid layer start len whole : Prog (Disk I V Q) (List Tid)).Keeps Disk.relation := by
  apply Prog.Keeps.lift
  intro s b s' h
  split at h
  · cases h
    rfl
  · cases h

theorem readNbrTidsAtLayer_keeps (nbrtid : Tid) (elemLevel layer mEff payloadM maxTids : Nat) :
    (readNbrTidsAtLayer nbrtid elemLevel layer mEff payloadM maxTids :
      Prog (Disk I V Q) (List Tid)).Keeps Disk.relation :=
  (copySlots_keeps _ _ _ _ _).bind fun _ => .pure _

variable [CDouble D] {H : PairingHeap} {oc : Opclass V Q D} {fuel : Nat} {ins : Inserting V}

omit [CDouble D] in
theorem nodeDistance_keeps (query : V) (t : Tid) :
    (nodeDistance oc query t : Prog (Disk I V Q) (D × Datum)).Keeps Disk.relation := .read _

theorem neighborsAt_keeps (mEff payloadM layer : Nat) (t : Tid) :
    (neighborsAt mEff payloadM layer t : Prog (Disk I V Q) (List Tid)).Keeps Disk.relation :=
  (readElement_keeps t).bind fun _ => readNbrTidsAtLayer_keeps _ _ _ _ _ _

theorem greedyDescendBuild_keeps (query : V) (mEff payloadM : Nat) (cur : Tid)
    (fromLevel toLevel : Nat) :
    (greedyDescendBuild oc fuel query mEff payloadM cur fromLevel toLevel :
      Prog (Disk I V Q) Tid).Keeps Disk.relation := by
  apply greedyDescend_keeps
  · intro u
    exact (nodeDistance_keeps query u).bind fun _ => .pure _
  · intro lc u
    exact neighborsAt_keeps mEff payloadM lc u

theorem searchLayerConstruction_keeps (entry : Tid) (query : V) (mEff payloadM layer ef : Nat)
    (part : Option Nat) (maxExpansions : Nat) :
    (searchLayerConstruction H oc fuel entry query mEff payloadM layer ef part maxExpansions :
      Prog (Disk I V Q) (List (Tid × D))).Keeps Disk.relation := by
  apply beamSearch_keeps
  constructor
  · intro u
    exact (nodeDistance_keeps query u).bind fun _ => .pure _
  · intro u
    exact .pure _
  · intro u
    exact (nodeDistance_keeps query u).bind fun _ => .pure _
  · intro u
    exact (neighborsAt_keeps mEff payloadM layer u).bind fun _ => .pure _

theorem chooseCands_keeps (diversify : Bool) (cands : List (Tid × D)) (mMax : Nat) :
    (chooseCands oc diversify cands mMax : Prog (Disk I V Q) (List Tid)).Keeps Disk.relation := by
  unfold chooseCands
  dsimp only
  split
  · refine .bind ?_ fun _ => .pure _
    unfold selectDiverseTids
    split
    · exact .pure _
    · exact .bind (.mapM (fun c : Tid × D => readElement_keeps c.1) _) fun _ => .pure _
  · exact .pure _

theorem wireLayer_keeps (w : Wiring) (lc : Nat) :
    (wireLayer H oc fuel ins w lc : Prog (Disk I V Q) Wiring).Keeps Disk.relation := by
  unfold wireLayer
  refine (searchLayerConstruction_keeps _ _ _ _ _ _ _ _).bind fun cands => ?_
  dsimp only
  split
  · refine .bind ?_ fun _ => .pure _
    exact (chooseCands_keeps _ _ _).bind fun globals =>
      (searchLayerConstruction_keeps _ _ _ _ _ _ _ _).bind fun pcands =>
        (chooseCands_keeps _ _ _).bind fun _ => .pure _
  · exact (chooseCands_keeps _ _ _).bind fun _ => .pure _

theorem wireLayers_keeps (lc : Nat) (w : Wiring) :
    (wireLayers H oc fuel ins lc w : Prog (Disk I V Q) Wiring).Keeps Disk.relation := by
  induction lc generalizing w with
  | zero => exact wireLayer_keeps w 0
  | succ lc ih => exact (wireLayer_keeps w (lc + 1)).bind fun w => ih w

theorem wire_keeps (p : MetaPage) :
    (wire H oc fuel ins p : Prog (Disk I V Q) Wiring).Keeps Disk.relation := by
  unfold wire
  dsimp only
  split
  · split
    · exact (greedyDescendBuild_keeps _ _ _ _ _ _).bind fun ep => wireLayers_keeps _ _
    · exact wireLayers_keeps _ _
  · exact .pure _

omit [CDouble D] in
theorem gatherEntry_keeps [Inhabited Q] (dims : Nat) (t : Tid) :
    (gatherEntry oc dims t : Prog (Disk I V Q) (InlineEntry Q)).Keeps Disk.relation := by
  unfold gatherEntry
  split
  · exact .pure _
  · exact (readElement_keeps t).bind fun _ => .pure _

theorem replaceSlot_keeps (n : ElementTuple V) (tids : List Tid) (part : Option Nat) :
    (replaceSlot oc ins n tids part : Prog (Disk I V Q) (Option Nat)).Keeps Disk.relation := by
  unfold replaceSlot
  dsimp only
  split
  on_goal 2 => refine .bind (.mapM readElement_keeps _) fun es => ?_
  all_goals
    refine .bind (.pure _) fun nonmember => ?_
    split
    · exact .pure _
    · exact .bind (.mapM readElement_keeps _) fun _ => .pure _

end

end PgAcorn.Build
