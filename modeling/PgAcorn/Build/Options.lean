import PgAcorn.Tuple

/-! The options of an index and what is derived from them.

An index without reloptions takes every default, and its gamma from the session.
What a build derives is recorded on the meta page; what an insert derives again
is its own. -/
namespace PgAcorn.Build
open PgAcorn.Filter (Datum)

/-- `AcornOptions`, without the two options only a build reads. -/
structure AcornOptions where
  m : Nat
  efConstruction : Nat
  gamma : Nat
  payloadM : Nat
  payloadEdges : Bool
  diversify : Bool
  deriving DecidableEq, Repr

/-- `rd_options` of an index and `pg_acorn.default_gamma` of a session. -/
abbrev RdOptions := Option AcornOptions

def optM (opts : RdOptions) : Nat := opts.elim 16 AcornOptions.m

def optEfConstruction (opts : RdOptions) : Nat := opts.elim 64 AcornOptions.efConstruction

def optGamma (opts : RdOptions) (defaultGamma : Nat) : Nat := opts.elim defaultGamma AcornOptions.gamma

def optPayloadM (opts : RdOptions) : Nat := opts.elim 0 AcornOptions.payloadM

def optPayloadEdges (opts : RdOptions) : Bool := opts.elim false AcornOptions.payloadEdges

def optDiversify (opts : RdOptions) : Bool := opts.elim false AcornOptions.diversify

/-- `acorn_m_eff`. -/
def mEff (opts : RdOptions) (defaultGamma : Nat) : Nat :=
  min (optM opts * optGamma opts defaultGamma) hnswMaxM

/-- `acorn_payload_m_eff`. -/
def payloadMEff (opts : RdOptions) (defaultGamma : Nat) : Nat :=
  let globalM := mEff opts defaultGamma
  if optPayloadM opts = 0 then globalM else min (optPayloadM opts) (hnswMaxNeighbors - globalM)

/-- `acorn_payload_partition`: identity modulo the 256 partitions. -/
def payloadPartition (filterVal : Datum) : Nat := (filterVal &&& 255#64).toNat

/-- `ACORN_MAX_LEVEL`. -/
def acornMaxLevel : Nat := 6

/-- `acorn_assign_level`, of the drawn `floor(-ln(u) / ln(m_eff))`. -/
def assignLevel (mEff drawn : Nat) : Nat := if mEff ≤ 1 then 0 else min drawn acornMaxLevel

/-- `acorn_create_meta_page`: the geometry of a build. Zero encodes a payload half
as wide as the global one. -/
def createMetaPage (mEff payloadM dimensions : Nat) (inlineVectors : Bool) : MetaPage where
  dimensions := dimensions
  m := mEff
  entryBlkno := invalidBlockNumber
  entryOffno := 0
  entryLevel := -1
  inlineVectors := inlineVectors
  payloadM := if payloadM = mEff then 0 else payloadM

/-- What a build records is what its readers decode. -/
theorem payloadWidth_createMetaPage {mEff payloadM : Nat} (h : 0 < payloadM) (dimensions : Nat)
    (inlineVectors : Bool) :
    (createMetaPage mEff payloadM dimensions inlineVectors).payloadWidth = payloadM := by
  unfold MetaPage.payloadWidth createMetaPage
  dsimp only
  by_cases hsym : payloadM = mEff
  · rw [if_pos hsym, if_pos rfl, hsym]
  · rw [if_neg hsym, if_neg (by omega)]

end PgAcorn.Build
