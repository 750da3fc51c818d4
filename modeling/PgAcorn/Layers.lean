import PgAcorn.Graph
import PgAcorn.Library.Descent

/-! The graph of an index as a descent reads it: its elements, with the range of each
layer in their neighbor tuples. -/
namespace PgAcorn
open Library

namespace Relation
variable {V Q D : Type} [CDouble D]

/-- The layers of an index, with the distances of its vectors. -/
def layered (r : Relation V Q) (distance : V → D) : LayeredGraph Tid D where
  distance t := match r.element t with
    | some e => distance e.vec
    | none => CDouble.dblMax
  On lc t := ∃ e, r.element t = some e ∧ lc ≤ e.level
  neighbors := r.layerNeighbors
  slots t := match (r.element t).bind fun e => r.neighbor e.neighbortid with
    | some n => n.count
    | none => 0
  start lc t := match r.element t with
    | some e => hnswNeighborStart r.metaPage.m e.level lc
    | none => 0
  width lc := t2LayerM lc r.metaPage.m r.metaPage.payloadWidth

theorem layered_distance {r : Relation V Q} {distance : V → D} {t : Tid} {e : ElementTuple V}
    (he : r.element t = some e) : (r.layered distance).distance t = distance e.vec := by
  simp only [layered, he]

theorem WellFormed.layered {r : Relation V Q} (h : r.WellFormed) (distance : V → D) :
    (r.layered distance).WellFormed where
  neighbors := fun ⟨_, he, hl⟩ hu => h.targets he hl hu
  below := fun ⟨e, he, hl⟩ => ⟨e, he, by omega⟩
  finite := r.elements_finite.subset fun _ ⟨e, he, _⟩ => ⟨e, he⟩
  inside := by
    rintro lc t ⟨e, he, hl⟩
    obtain ⟨n, hn, hcount⟩ := h.neighbors he
    have hend := layer_end_le hl r.metaPage.m r.metaPage.payloadWidth
    show 0 ≤ (Relation.layered r distance).start lc t ∧
      (Relation.layered r distance).start lc t + _ ≤ ((Relation.layered r distance).slots t : Int)
    simp only [Relation.layered, he, Option.bind_some, hn, hcount, hnswNeighborStart_eq hl]
    omega

end Relation

end PgAcorn
