import Mathlib.Tactic.Ring
import Mathlib.Algebra.Order.Ring.Int

/-! The neighbor-array geometry of an index.

An element of level `level` owns `level + 1` layers of neighbor slots in one
flat array, highest layer first. Every layer is `globalM` slots wide; layer 0 is
widened by the payload half, `payloadM` further slots. `globalM` is the stride
of the whole array, so the start of a layer depends on it alone. Starts are
signed, as in the source: asking a low element for a high layer gives a negative
one, and an access there is out of bounds. -/
namespace PgAcorn

/-! ### Constants -/

/-- `HNSW_MAX_M`. -/
def hnswMaxM : Nat := 100

/-- `HNSW_MAX_NEIGHBORS`, the size of a per-layer buffer. -/
def hnswMaxNeighbors : Nat := hnswMaxM * 2

/-- `HNSW_HEAPTIDS`. -/
abbrev hnswHeaptids : Nat := 10

/-! ### Layers of the slot array -/

/-- `acorn_t2_l0_width`. -/
def t2L0Width (globalM payloadM : Nat) : Nat := globalM + payloadM

/-- `acorn_t2_layer_m`. -/
def t2LayerM (layer globalM payloadM : Nat) : Nat :=
  if layer = 0 then t2L0Width globalM payloadM else globalM

/-- `acorn_t2_total_slots`. -/
def t2TotalSlots (level globalM payloadM : Nat) : Nat := (level + 1) * globalM + payloadM

/-- `acorn_t2_level_from_count`, in C's truncating division. -/
def t2LevelFromCount (count globalM payloadM : Nat) : Int :=
  ((count : Int) - payloadM).tdiv globalM - 1

/-- `HnswNeighborStart`. -/
def hnswNeighborStart (m : Nat) (level layer : Int) : Int := (level - layer) * m

theorem t2LayerM_zero (globalM payloadM : Nat) :
    t2LayerM 0 globalM payloadM = globalM + payloadM := rfl

theorem t2LayerM_pos {layer : Nat} (h : 0 < layer) (globalM payloadM : Nat) :
    t2LayerM layer globalM payloadM = globalM := if_neg (by omega)

/-- The start of a layer the element has. -/
theorem hnswNeighborStart_eq {level layer : Nat} (h : layer ≤ level) (m : Nat) :
    hnswNeighborStart m level layer = ((level - layer) * m : Nat) := by
  rw [hnswNeighborStart, ← Nat.cast_sub h, Nat.cast_mul]

/-- Every layer the element has lies inside its array. -/
theorem layer_end_le {level layer : Nat} (h : layer ≤ level) (globalM payloadM : Nat) :
    (level - layer) * globalM + t2LayerM layer globalM payloadM ≤
      t2TotalSlots level globalM payloadM := by
  have hsplit : (level - layer) * globalM + (layer + 1) * globalM = (level + 1) * globalM := by
    rw [← Nat.add_mul]
    congr 1
    omega
  unfold t2TotalSlots
  by_cases h0 : layer = 0
  · subst h0
    rw [t2LayerM_zero]
    omega
  · rw [t2LayerM_pos (by omega)]
    have : globalM ≤ (layer + 1) * globalM := Nat.le_mul_of_pos_left _ (by omega)
    omega

/-- A layer ends where the next lower one starts. -/
theorem layer_end_le_start {level layer layer' : Nat} (h : layer ≤ level) (hlt : layer' < layer)
    (globalM payloadM : Nat) :
    (level - layer) * globalM + t2LayerM layer globalM payloadM ≤ (level - layer') * globalM := by
  rw [t2LayerM_pos (by omega), ← Nat.succ_mul]
  exact Nat.mul_le_mul_right _ (by omega)

/-- The level is recovered from the slot count. -/
theorem t2LevelFromCount_totalSlots {globalM : Nat} (h : 0 < globalM) (level payloadM : Nat) :
    t2LevelFromCount (t2TotalSlots level globalM payloadM) globalM payloadM = level := by
  have hcount : ((t2TotalSlots level globalM payloadM : Nat) : Int) - payloadM =
      ((level : Int) + 1) * globalM := by
    unfold t2TotalSlots
    push_cast
    ring
  rw [t2LevelFromCount, hcount, Int.mul_tdiv_cancel _ (by omega)]
  omega

/-! ### Slot ranges -/

/-- `len` consecutive slots from `start`; `none` where the access leaves the
array. -/
def slotRange {α : Type} (slots : List α) (start : Int) (len : Nat) : Option (List α) :=
  if 0 ≤ start ∧ start + len ≤ slots.length then some ((slots.drop start.toNat).take len)
  else none

theorem slotRange_eq {α : Type} {slots : List α} {start len : Nat}
    (h : start + len ≤ slots.length) :
    slotRange slots start len = some ((slots.drop start).take len) :=
  if_pos ⟨by omega, by exact_mod_cast h⟩

theorem length_of_slotRange {α : Type} {slots range : List α} {start : Int} {len : Nat}
    (h : slotRange slots start len = some range) : range.length = len := by
  unfold slotRange at h
  split at h
  · rename_i hb
    obtain rfl := Option.some.inj h
    rw [List.length_take, List.length_drop]
    omega
  · cases h

end PgAcorn
