import PgAcorn.Library.SeqLock
import PgAcorn.Library.Machine
import PgAcorn.Tuple

/-! The entries of a code cache slot, access by access.

A page of the index has an array of entries, which inserts grow by copying it to a
larger one and publishing that. Writers take turns under the slot's `wlock`; an
insert and an invalidation write one entry under its version. Readers take no lock:
they resolve an entry of any array that was ever published, their snapshot of the
directory may be old, and copy it field by field between two reads of the version.
Every access to an entry is a step of its own.

Beside the shared memory the state records, for each entry, how many writes of it
have ended and which contents were written completely: by the load, by an insert,
or before the array was copied. -/
namespace PgAcorn.CodeCache.Entries
open Library

/-! ### Entries -/

/-- The fields of `AcornCodeCacheEntry` after its version; a code byte each. -/
inductive Field
  | heaptid | nbrtid | level | flags | filterVal | scale | offset
  | code (i : Nat)
  deriving DecidableEq

/-- The bits of a field. -/
abbrev Word := BitVec 64

abbrev Content := Field → Word

/-- `AcornCodeCacheEntry`. -/
abbrev Entry := SeqCell Field Word

/-- `ACORN_CC_PRESENT`. -/
def isPresent (flags : Word) : Bool := flags &&& 2#64 != 0#64

/-- `ACORN_CC_DELETED`. -/
def isDeleted (flags : Word) : Bool := flags &&& 1#64 != 0#64

/-- A zeroed entry. -/
def Entry.zero : Entry := ⟨0#32, fun _ => 0#64⟩

/-- The code bytes of a vector. -/
def codeFields (dim : Nat) : List Field := (List.range dim).map Field.code

/-- What `acorn_codecache_read` copies out, in its order. -/
def hitFields (dim : Nat) : List Field :=
  [.heaptid, .nbrtid, .level, .flags, .filterVal, .scale, .offset] ++ codeFields dim

/-- What `acorn_codecache_insert` writes, in its order: `acorn_sq8_encode` the codes
first, then scale and offset. -/
def insertFields (dim : Nat) : List Field :=
  [.heaptid, .nbrtid, .level, .filterVal] ++ codeFields dim ++ [.scale, .offset, .flags]

theorem mem_insertFields {dim : Nat} {f : Field} : f ∈ insertFields dim ↔ f ∈ hitFields dim := by
  simp only [insertFields, hitFields, List.mem_append, List.mem_cons, List.not_mem_nil, or_false]
  tauto

/-- The content of an insert: its flags are `ACORN_CC_PRESENT`. -/
def insertContent (c : Content) : Content := Function.update c .flags 2#64

/-- An array of entries, the first at offset 1. -/
structure PageArray where
  nslots : Nat
  entry : Nat → Entry

/-- `ACORN_CC_PAGE_GROW`. -/
def pageGrow (need : Nat) : Nat := need + 8

/-- A part of an entry that `memcpy` moves. -/
inductive Part
  | version
  | field (f : Field)
  deriving DecidableEq

/-- Copies one part of an entry. -/
def Entry.copyPart (dst src : Entry) : Part → Entry
  | .version => { dst with version := src.version }
  | .field f => dst.write f (src.field f)

/-- The parts of all entries of an array. -/
def copyParts (dim nslots : Nat) : List (Nat × Part) :=
  (List.range nslots).flatMap fun i =>
    (i + 1, .version) :: (hitFields dim).map fun f => (i + 1, .field f)

/-! ### State -/

/-- What a writer does to an entry. -/
inductive Job
  | insert (c : Content)
  | invalidate

/-- Where a writer is; every place but `idle` is under the `wlock`. -/
inductive WriterPc
  | idle
  | ensurePage (blkno offno : Nat) (c : Content)
  | copy (blkno offno : Nat) (c : Content) (src dst : Nat) (todo : List (Nat × Part))
  | publish (blkno offno : Nat) (c : Content) (src : Option Nat) (dst : Nat)
  | writeBegin (a o : Nat) (job : Job)
  | write (a o : Nat) (job : Job) (todo : List (Field × Word))
  | release

/-- Where a reader is with entry `o` of array `a`; `start` and `fin` are how many
writes of it had ended when the read began and when it returned, and `attempt` counts
from zero. -/
inductive ReaderPc
  | idle
  | version (a o start attempt : Nat)
  | present (a o start attempt : Nat) (v0 : BitVec 32)
  | deleted (a o start attempt : Nat) (v0 : BitVec 32)
  | recheck (a o start attempt : Nat) (v0 : BitVec 32)
  | copy (a o start attempt : Nat) (v0 : BitVec 32) (todo : List Field) (got : List (Field × Word))
  | validate (a o start attempt : Nat) (v0 : BitVec 32) (got : List (Field × Word))
  | returned (a o start fin : Nat) (hit : Option (List (Field × Word)))
  deriving DecidableEq

/-- A slot's entries, its `wlock`, and the parties; `published` marks the arrays
that were ever in the directory, `ends` and `completed` are the record. -/
structure State (W R : Type) where
  arrays : Nat → PageArray
  next : Nat
  blocks : Nat → Option Nat
  wlock : Option W
  writers : W → WriterPc
  readers : R → ReaderPc
  published : Nat → Bool
  ends : Nat → Nat → Nat
  completed : Nat → Nat → List Content

namespace State
variable {W R : Type}

/-- Sets an entry. -/
def setEntry (s : State W R) (a o : Nat) (e : Entry) : State W R :=
  let entries := Function.update (s.arrays a).entry o e
  { s with arrays := Function.update s.arrays a ⟨(s.arrays a).nslots, entries⟩ }

def entry (s : State W R) (a o : Nat) : Entry := (s.arrays a).entry o

variable [DecidableEq W] [DecidableEq R]

def setWriter (s : State W R) (w : W) (pc : WriterPc) : State W R :=
  { s with writers := Function.update s.writers w pc }

def setReader (s : State W R) (r : R) (pc : ReaderPc) : State W R :=
  { s with readers := Function.update s.readers r pc }

/-- What the load leaves: array `b` for block `b`, entries at version zero or zeroed. -/
def init (loaded : List (Nat × (Nat → Option Content))) : State W R where
  arrays b := (loaded[b]?).elim ⟨0, fun _ => Entry.zero⟩ fun p =>
    ⟨p.1, fun o => (p.2 o).elim Entry.zero fun c => ⟨0#32, c⟩⟩
  next := loaded.length
  blocks b := if b < loaded.length then some b else none
  wlock := none
  writers _ := .idle
  readers _ := .idle
  published b := decide (b < loaded.length)
  ends _ _ := 0
  completed b o := (loaded[b]?).elim [] fun p => (p.2 o).toList

end State

/-! ### Steps -/

inductive Action (W R : Type)
  /-- `acorn_codecache_insert` gets the `wlock`. -/
  | insert (w : W) (blkno offno : Nat) (c : Content)
  /-- `acorn_codecache_invalidate` has it, and resolved an entry. -/
  | invalidate (w : W) (a o : Nat)
  /-- A writer's next access. -/
  | write (w : W)
  /-- The budget refuses a new array. -/
  | refuse (w : W)
  /-- A reader resolves an entry. -/
  | resolve (r : R) (a o : Nat)
  /-- A reader's next access. -/
  | read (r : R)

section
variable {W R : Type} [DecidableEq W] [DecidableEq R] (dim : Nat)

/-- `acorn_cc_ensure_page`: the page's array if it reaches `offno`, else a new one,
zeroed, to copy the old one into. -/
def ensurePage (s : State W R) (w : W) (blkno offno : Nat) (c : Content) : State W R :=
  let fresh : State W R :=
    { s with
      arrays := Function.update s.arrays s.next ⟨pageGrow offno, fun _ => Entry.zero⟩
      next := s.next + 1 }
  match s.blocks blkno with
  | none => fresh.setWriter w (.publish blkno offno c none s.next)
  | some a =>
    if offno ≤ (s.arrays a).nslots then s.setWriter w (.writeBegin a offno (.insert c))
    else fresh.setWriter w (.copy blkno offno c a s.next (copyParts dim (s.arrays a).nslots))

/-- The new array is in the directory; with it goes the record of the old one. -/
def publish (s : State W R) (blkno : Nat) (src : Option Nat) (dst : Nat) : State W R :=
  { s with
    blocks := Function.update s.blocks blkno (some dst)
    published := Function.update s.published dst true
    ends := Function.update s.ends dst fun o =>
      src.elim 0 fun a => if 1 ≤ o ∧ o ≤ (s.arrays a).nslots then s.ends a o else 0
    completed := Function.update s.completed dst fun o =>
      src.elim [] fun a => if 1 ≤ o ∧ o ≤ (s.arrays a).nslots then s.completed a o else [] }

/-- The fields a job writes into an entry, in order. -/
def Job.writes (job : Job) (e : Entry) : List (Field × Word) :=
  match job with
  | .insert c => (insertFields dim).map fun f => (f, insertContent c f)
  | .invalidate => [(.flags, (e.field .flags &&& ~~~2#64) ||| 1#64)]

/-- The write of an entry has ended. -/
def endWrite (s : State W R) (a o : Nat) (job : Job) : State W R :=
  { s.setEntry a o (s.entry a o).writeEnd with
    ends := Function.update s.ends a (Function.update (s.ends a) o (s.ends a o + 1))
    completed :=
      match job with
      | .insert c => Function.update s.completed a
          (Function.update (s.completed a) o (insertContent c :: s.completed a o))
      | .invalidate => s.completed }

/-- A writer's next access. -/
def writerStep (s : State W R) (w : W) : Option (State W R) :=
  match s.writers w with
  | .idle => none
  | .ensurePage blkno offno c => some (ensurePage dim s w blkno offno c)
  | .copy blkno offno c src dst [] => some (s.setWriter w (.publish blkno offno c (some src) dst))
  | .copy blkno offno c src dst ((o, part) :: todo) =>
    some ((s.setEntry dst o ((s.entry dst o).copyPart (s.entry src o) part)).setWriter w
      (.copy blkno offno c src dst todo))
  | .publish blkno offno c src dst =>
    some ((publish s blkno src dst).setWriter w (.writeBegin dst offno (.insert c)))
  | .writeBegin a o job =>
    some ((s.setEntry a o (s.entry a o).writeBegin).setWriter w
      (.write a o job (job.writes dim (s.entry a o))))
  | .write a o job ((f, x) :: todo) =>
    some ((s.setEntry a o ((s.entry a o).write f x)).setWriter w (.write a o job todo))
  | .write a o job [] => some ((endWrite s a o job).setWriter w .release)
  | .release => some { s.setWriter w .idle with wlock := none }

/-- The first attempt is followed by one more. -/
def nextAttempt (a o start fin attempt : Nat) : ReaderPc :=
  if attempt + 1 < 2 then .version a o start (attempt + 1) else .returned a o start fin none

/-- `acorn_codecache_read`, one access. -/
def readerNext (dim : Nat) (s : State W R) : ReaderPc → Option ReaderPc
  | .idle | .returned _ _ _ _ _ => none
  | .version a o start attempt =>
    let v0 := (s.entry a o).version
    if v0 &&& 1#32 = 0 then some (.present a o start attempt v0)
    else some (nextAttempt a o start (s.ends a o) attempt)
  | .present a o start attempt v0 =>
    if isPresent ((s.entry a o).field .flags) then some (.deleted a o start attempt v0)
    else some (.recheck a o start attempt v0)
  | .deleted a o start attempt v0 =>
    if isDeleted ((s.entry a o).field .flags) then some (.recheck a o start attempt v0)
    else some (.copy a o start attempt v0 (hitFields dim) [])
  | .recheck a o start attempt v0 =>
    if (s.entry a o).version = v0 then some (.returned a o start (s.ends a o) none)
    else some (nextAttempt a o start (s.ends a o) attempt)
  | .copy a o start attempt v0 (f :: todo) got =>
    some (.copy a o start attempt v0 todo (got ++ [(f, (s.entry a o).field f)]))
  | .copy a o start attempt v0 [] got => some (.validate a o start attempt v0 got)
  | .validate a o start attempt v0 got =>
    if (s.entry a o).version = v0 then some (.returned a o start (s.ends a o) (some got))
    else some (nextAttempt a o start (s.ends a o) attempt)

/-- Whether a reader may resolve an entry. -/
def resolvable (s : State W R) (a o : Nat) : Bool :=
  s.published a && decide (1 ≤ o ∧ o ≤ (s.arrays a).nslots)

/-- The slot's step. -/
def step (s : State W R) : Action W R → Option (State W R)
  | .insert w blkno offno c =>
    match s.wlock, s.writers w with
    | none, .idle =>
      if 1 ≤ offno then some { s.setWriter w (.ensurePage blkno offno c) with wlock := some w } else none
    | _, _ => none
  | .invalidate w a o =>
    match s.wlock, s.writers w with
    | none, .idle =>
      if resolvable s a o then some { s.setWriter w (.writeBegin a o .invalidate) with wlock := some w }
      else none
    | _, _ => none
  | .write w => writerStep dim s w
  | .refuse w =>
    match s.writers w with
    | .ensurePage _ _ _ => some (s.setWriter w .release)
    | _ => none
  | .resolve r a o =>
    match s.readers r with
    | .idle | .returned _ _ _ _ _ =>
      if resolvable s a o then some (s.setReader r (.version a o (s.ends a o) 0)) else none
    | _ => none
  | .read r => (readerNext dim s (s.readers r)).map fun pc => s.setReader r pc

end

end PgAcorn.CodeCache.Entries
