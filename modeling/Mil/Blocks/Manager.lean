import Mathlib.Data.Finset.Insert
import Mathlib.Logic.Function.Basic
import Mil.Lib.Dict

/-!
# The KV block manager

`BlockAllocator` and `BlockSpaceManager` of `vllm/core/block_manager.py`. Physical blocks are
objects: the allocators build one for each device and number, and tables, free lists and mappings
share them. `Block` is the identity of such an object, and the state holds its reference count.

The free list of an allocator is in the order of the Python list, which is popped at its end, and
`block_tables` is in the order in which its keys came, which is the order in which
`reorganize_gpu_blocks` and `reset` go over it. An operation that raises gives `none`.

Left out: the watermark fraction (`watermark_blocks` is a number here), the block size of a block
and its slots.
-/

set_option autoImplicit false

namespace Mil.Blocks

open Mil.Lib

/-! ## Sequences -/

inductive Device
  | gpu
  | cpu
deriving DecidableEq, Repr

/-- A `PhysicalTokenBlock`. -/
structure Block where
  device : Device
  number : Nat
deriving DecidableEq, Repr

abbrev BlockTable := List Block

inductive SequenceStatus
  | waiting
  | running
  | swapped
  | finishedStopped
  | finishedLengthCapped
  | finishedAborted
  | finishedIgnored
deriving DecidableEq, Repr

def SequenceStatus.isFinished : SequenceStatus → Bool
  | .waiting | .running | .swapped => false
  | .finishedStopped | .finishedLengthCapped | .finishedAborted | .finishedIgnored => true

/-- A `Sequence`: its id, its status and the number of its tokens (`get_len`). -/
structure Sequence where
  seqId : Nat
  status : SequenceStatus
  len : Nat
deriving DecidableEq, Repr

/-- `len(seq.logical_token_blocks)`: `_append_tokens_to_blocks` fills each block before it appends
the next. -/
def Sequence.logicalTokenBlocks (blockSize : Nat) (s : Sequence) : Nat :=
  (s.len + blockSize - 1) / blockSize

/-- A `Prefix`; groups with one `key` share it, and the state holds its block table. -/
structure Prefix where
  key : Nat
  numBlocks : Nat
  computed : Bool
deriving DecidableEq, Repr

structure SequenceGroup where
  requestId : Nat
  /-- `seqs_dict.values()` -/
  seqs : List Sequence
  bestOf : Nat
  useBeamSearch : Bool
  pre : Option Prefix
deriving DecidableEq, Repr

namespace SequenceGroup

/-- `get_seqs(status=..)`. -/
def getSeqs (g : SequenceGroup) (status : SequenceStatus) : List Sequence :=
  g.seqs.filter fun s => s.status = status

/-- `num_seqs()`. -/
def numSeqs (g : SequenceGroup) : Nat := g.seqs.length

def numUnfinishedSeqs (g : SequenceGroup) : Nat :=
  (g.seqs.filter fun s => !s.status.isFinished).length

def isFinished (g : SequenceGroup) : Bool := g.seqs.all fun s => s.status.isFinished

def getMaxNumRunningSeqs (g : SequenceGroup) : Nat :=
  if g.useBeamSearch then g.bestOf
  else if g.numSeqs < g.bestOf then g.bestOf
  else g.numUnfinishedSeqs

end SequenceGroup

/-! ## The state -/

/-- What does not change: the arguments of `__init__` and `blk_num_per_layer`. -/
structure Config where
  blockSize : Nat
  numTotalGpuBlocks : Nat
  numTotalCpuBlocks : Nat
  watermarkBlocks : Nat
  blockSlidingWindow : Option Nat
  blkNumPerLayer : Nat
deriving DecidableEq, Repr

/-- The two allocators, the tables, and the two counters of `KVBlkPerLayerWeight`. -/
structure BlockManager where
  refCount : Block → Nat
  freeBlocks : Device → List Block
  blockTables : List (Nat × BlockTable)
  prefixTables : Nat → Option BlockTable
  actualGpuBlkRngEnd : Int
  cachedLayerNum : Int
  loadMoreLayerOnCardNum : Nat

/-- The blocks of a device from the last to the first. -/
def initialFreeBlocks (d : Device) (numBlocks : Nat) : List Block :=
  (List.range numBlocks).reverse.map fun i => ⟨d, i⟩

def BlockManager.init (cfg : Config) (cachedLayerNum : Int) : BlockManager where
  refCount _ := 0
  freeBlocks
    | .gpu => initialFreeBlocks .gpu cfg.numTotalGpuBlocks
    | .cpu => initialFreeBlocks .cpu cfg.numTotalCpuBlocks
  blockTables := []
  prefixTables _ := none
  actualGpuBlkRngEnd := cfg.numTotalGpuBlocks
  cachedLayerNum := cachedLayerNum
  loadMoreLayerOnCardNum := 0

namespace BlockManager

def setRefCount (m : BlockManager) (b : Block) (n : Nat) : BlockManager :=
  { m with refCount := Function.update m.refCount b n }

def addRefCount (m : BlockManager) (b : Block) (n : Nat) : BlockManager :=
  m.setRefCount b (m.refCount b + n)

def setFreeBlocks (m : BlockManager) (d : Device) (bs : List Block) : BlockManager :=
  { m with freeBlocks := Function.update m.freeBlocks d bs }

/-- `self.block_tables[seq_id] = table`. -/
def setTable (m : BlockManager) (seqId : Nat) (table : BlockTable) : BlockManager :=
  { m with blockTables := Dict.set seqId table m.blockTables }

/-! ## The allocators -/

/-- `BlockAllocator.allocate` of the allocator of a device. -/
def allocateBlock (m : BlockManager) (d : Device) : Option (Block × BlockManager) :=
  match (m.freeBlocks d).getLast? with
  | none => none
  | some b => some (b, (m.setFreeBlocks d (m.freeBlocks d).dropLast).setRefCount b 1)

/-- `BlockAllocator.free` of the allocator of a device. -/
def freeBlock (m : BlockManager) (d : Device) (b : Block) : Option BlockManager :=
  if m.refCount b = 0 then none
  else
    let m := m.setRefCount b (m.refCount b - 1)
    if m.refCount b = 0 then some (m.setFreeBlocks d (m.freeBlocks d ++ [b])) else some m

def getNumFreeBlocks (m : BlockManager) (d : Device) : Nat := (m.freeBlocks d).length

/-- `if block.ref_count == 0: block.ref_count = 1`. -/
def takeBlock (m : BlockManager) (b : Block) : BlockManager :=
  if m.refCount b = 0 then m.setRefCount b 1 else m

def allocateGivenBlkIdxsInFreeList (m : BlockManager) (d : Device) (blkIdxs : List Nat) :
    BlockManager :=
  let blocks := ((m.freeBlocks d).zipIdx.filter fun p => p.2 ∈ blkIdxs).map Prod.fst
  let newFreeBlocks := ((m.freeBlocks d).zipIdx.filter fun p => p.2 ∉ blkIdxs).map Prod.fst
  (blocks.foldl takeBlock m).setFreeBlocks d newFreeBlocks

/-! ## Allocation of a prompt -/

inductive AllocStatus
  | ok
  | later
  | never
deriving DecidableEq, Repr

/-- `None` of a prefix that is not there or not allocated; then nothing is shared. -/
def allocatedPrefix (m : BlockManager) (g : SequenceGroup) : Option (Prefix × BlockTable) :=
  g.pre.bind fun p => (m.prefixTables p.key).map fun table => (p, table)

def canAllocate (cfg : Config) (m : BlockManager) (g : SequenceGroup) : Option AllocStatus := do
  let seq ← (g.getSeqs .waiting).head?
  let numRequiredBlocks : Int := seq.logicalTokenBlocks cfg.blockSize
  let numRequiredBlocks := match m.allocatedPrefix g with
    | some (p, _) => numRequiredBlocks - p.numBlocks
    | none => numRequiredBlocks
  let numRequiredBlocks := match cfg.blockSlidingWindow with
    | some w => min numRequiredBlocks w
    | none => numRequiredBlocks
  if (cfg.numTotalGpuBlocks : Int) - numRequiredBlocks < cfg.watermarkBlocks then
    return .never
  else if (cfg.watermarkBlocks : Int) ≤ m.getNumFreeBlocks .gpu - numRequiredBlocks then
    return .ok
  else
    return .later

/-- The block of one logical block of a prompt: with a sliding window a block of the table so far
again, else a new one. -/
def promptBlock (cfg : Config) (m : BlockManager) (logicalIdx : Nat) (table : BlockTable) :
    Option (Block × BlockManager) :=
  match cfg.blockSlidingWindow with
  | some w =>
    if w ≤ logicalIdx then
      if w = 0 then none else (table[logicalIdx % w]?).map fun b => (b, m)
    else m.allocateBlock .gpu
  | none => m.allocateBlock .gpu

/-- The loop over `range(num_prompt_blocks)`, from `logicalIdx` on, `count` iterations. -/
def promptBlocks (cfg : Config) (numSeqs : Nat) :
    (count logicalIdx : Nat) → BlockTable → BlockManager → Option (BlockTable × BlockManager)
  | 0, _, table, m => some (table, m)
  | count + 1, logicalIdx, table, m =>
    match promptBlock cfg m logicalIdx table with
    | none => none
    | some (b, m) =>
      promptBlocks cfg numSeqs count (logicalIdx + 1) (table ++ [b]) (m.setRefCount b numSeqs)

def addRefCounts (m : BlockManager) (bs : List Block) (n : Nat) : BlockManager :=
  bs.foldl (fun m b => m.addRefCount b n) m

/-- The first blocks of a new table become those of a prefix that is not allocated yet. -/
def setPrefix (m : BlockManager) (g : SequenceGroup) (table : BlockTable) : BlockManager :=
  match g.pre with
  | none => m
  | some p =>
    match m.prefixTables p.key with
    | some _ => m
    | none =>
      let prefixBlockTable := table.take p.numBlocks
      let m := m.addRefCounts prefixBlockTable 1
      { m with prefixTables := Function.update m.prefixTables p.key (some prefixBlockTable) }

def setTables (m : BlockManager) (seqs : List Sequence) (table : BlockTable) : BlockManager :=
  seqs.foldl (fun m s => m.setTable s.seqId table) m

def allocate (cfg : Config) (m : BlockManager) (g : SequenceGroup) : Option BlockManager := do
  let seq ← (g.getSeqs .waiting).head?
  let numPromptBlocks := seq.logicalTokenBlocks cfg.blockSize
  let (numPromptBlocks, shared, m) := match m.allocatedPrefix g with
    | some (p, table) => (numPromptBlocks - p.numBlocks, table, m.addRefCounts table g.numSeqs)
    | none => (numPromptBlocks, [], m)
  let (table, m) ← promptBlocks cfg g.numSeqs numPromptBlocks 0 shared m
  return (m.setPrefix g table).setTables (g.getSeqs .waiting) table

/-! ## Generation -/

def canAppendSlot (m : BlockManager) (g : SequenceGroup) : Bool :=
  (g.getSeqs .running).length ≤ m.getNumFreeBlocks .gpu

/-- The end of `append_slot`: a last block that is shared is copied. -/
def copyOnWrite (m : BlockManager) (seqId : Nat) (table : BlockTable) :
    Option (Option (Nat × Nat) × BlockManager) := do
  let lastBlock ← table.getLast?
  if lastBlock.device ≠ .gpu then none
  else if m.refCount lastBlock = 1 then return (none, m.setTable seqId table)
  else
    let (newBlock, m) ← m.allocateBlock .gpu
    let m ← (m.setTable seqId (table.dropLast ++ [newBlock])).freeBlock .gpu lastBlock
    return (some (lastBlock.number, newBlock.number), m)

/-- `append_slot`, with the copy it asks for. -/
def appendSlot (cfg : Config) (m : BlockManager) (s : Sequence) :
    Option (Option (Nat × Nat) × BlockManager) := do
  let table ← m.blockTables.lookup s.seqId
  if table.length < s.logicalTokenBlocks cfg.blockSize then
    let window := cfg.blockSlidingWindow.getD 0
    if window ≠ 0 ∧ window ≤ table.length then
      let b ← table[table.length % window]?
      copyOnWrite m s.seqId (table ++ [b])
    else
      let (b, m) ← m.allocateBlock .gpu
      return (none, m.setTable s.seqId (table ++ [b]))
  else copyOnWrite m s.seqId table

def fork (m : BlockManager) (parent child : Nat) : Option BlockManager := do
  let table ← m.blockTables.lookup parent
  return (m.setTable child table).addRefCounts table 1

/-! ## Swapping -/

/-- The number of different blocks in the tables of the unfinished sequences of a group:
`len(self._get_physical_blocks(..))`. -/
def numPhysicalBlocks (m : BlockManager) (g : SequenceGroup) : Option Nat := do
  let seqs := g.seqs.filter fun s => !s.status.isFinished
  let tables ← seqs.mapM fun s => m.blockTables.lookup s.seqId
  return tables.flatten.dedup.length

def canSwapIn (cfg : Config) (m : BlockManager) (g : SequenceGroup) : Option Bool := do
  let numBlocks ← m.numPhysicalBlocks g
  let numRequiredBlocks := numBlocks + (g.getSeqs .swapped).length
  return (cfg.watermarkBlocks : Int) ≤ m.getNumFreeBlocks .gpu - (numRequiredBlocks : Int)

def canSwapOut (m : BlockManager) (g : SequenceGroup) : Option Bool := do
  let numBlocks ← m.numPhysicalBlocks g
  return numBlocks ≤ m.getNumFreeBlocks .cpu

/-- What a swap carries along: the mapping so far, the new table and the manager. -/
abbrev Swapping := List (Block × Block) × BlockTable × BlockManager

/-- One block of a table is swapped from a device to the other: a block met before goes where it
went then, and its old reference is dropped. -/
def swapBlock (src dst : Device) (st : Swapping) (b : Block) : Option Swapping := do
  let (mapping, table, m) := st
  match mapping.lookup b with
  | some b' =>
    let m ← (m.addRefCount b' 1).freeBlock src b
    return (mapping, table ++ [b'], m)
  | none =>
    let (b', m) ← m.allocateBlock dst
    let m ← m.freeBlock src b
    return (Dict.set b b' mapping, table ++ [b'], m)

/-- The numbers of a mapping, as a dictionary of numbers. -/
def blockNumberMapping (mapping : List (Block × Block)) : List (Nat × Nat) :=
  Dict.update [] (mapping.map fun p => (p.1.number, p.2.number))

def swapInSeq (g : SequenceGroup) (st : List (Block × Block) × BlockManager) (s : Sequence) :
    Option (List (Block × Block) × BlockManager) := do
  let (mapping, m) := st
  let table ← m.blockTables.lookup s.seqId
  let (shared, m) ← match g.pre with
    | none => some ([], m)
    | some p => (m.prefixTables p.key).map fun bs => (bs, m.addRefCounts bs 1)
  let (mapping, newTable, m) ← table.foldlM (swapBlock .cpu .gpu) (mapping, shared, m)
  return (mapping, m.setTable s.seqId newTable)

/-- `swap_in`, with the numbers it maps. -/
def swapIn (m : BlockManager) (g : SequenceGroup) : Option (List (Nat × Nat) × BlockManager) := do
  if g.pre.any fun p => !((m.prefixTables p.key).isSome && p.computed) then none
  else
    let (mapping, m) ← (g.getSeqs .swapped).foldlM (swapInSeq g) ([], m)
    return (blockNumberMapping mapping, m)

/-- A block that belongs to the prefix of the group is only freed. -/
def swapOutBlock (g : SequenceGroup) (st : Swapping) (b : Block) : Option Swapping := do
  let inPrefix ← match g.pre with
    | none => some false
    | some p => (st.2.2.prefixTables p.key).map fun bs => decide (b ∈ bs)
  if inPrefix then
    let m ← st.2.2.freeBlock .gpu b
    return (st.1, st.2.1, m)
  else swapBlock .gpu .cpu st b

def swapOutSeq (g : SequenceGroup) (st : List (Block × Block) × BlockManager) (s : Sequence) :
    Option (List (Block × Block) × BlockManager) := do
  let (mapping, m) := st
  let table ← m.blockTables.lookup s.seqId
  let (mapping, newTable, m) ← table.foldlM (swapOutBlock g) (mapping, [], m)
  return (mapping, m.setTable s.seqId newTable)

/-- `swap_out`, with the numbers it maps. -/
def swapOut (m : BlockManager) (g : SequenceGroup) :
    Option (List (Nat × Nat) × BlockManager) := do
  let (mapping, m) ← (g.getSeqs .running).foldlM (swapOutSeq g) ([], m)
  return (blockNumberMapping mapping, m)

/-! ## Freeing -/

/-- `_free_block_table`: each block goes to the allocator of its device. -/
def freeBlockTable (m : BlockManager) (table : BlockTable) : Option BlockManager :=
  table.foldlM (fun m b => m.freeBlock b.device b) m

def free (m : BlockManager) (seqId : Nat) : Option BlockManager :=
  match m.blockTables.lookup seqId with
  | none => some m
  | some table => do
    let m ← m.freeBlockTable table
    return { m with blockTables := Dict.erase seqId m.blockTables }

def reset (m : BlockManager) : Option BlockManager := do
  let m ← m.blockTables.foldlM (fun m p => m.freeBlockTable p.2) m
  return { m with blockTables := [] }

/-- `get_block_table`. -/
def getBlockTable (m : BlockManager) (seqId : Nat) : Option (List Nat) :=
  (m.blockTables.lookup seqId).map fun table => table.map Block.number

/-! ## Retiring blocks -/

/-- `blk_is_free[i]`: a list of `num_total_gpu_blocks` entries, with Python's negative indices. -/
def blkIsFree (cfg : Config) (m : BlockManager) (i : Int) : Option Bool :=
  let i := if i < 0 then i + cfg.numTotalGpuBlocks else i
  if 0 ≤ i ∧ i < cfg.numTotalGpuBlocks then
    some ((m.freeBlocks .gpu).any fun b => (b.number : Int) = i)
  else none

/-- The numbers of `range(start, end)`. -/
def range (start stop : Int) : List Int :=
  (List.range (stop - start).toNat).map fun i : Nat => start + (i : Int)

/-- The numbers of a range that are not free. -/
def usedIn (cfg : Config) (m : BlockManager) (start stop : Int) : List Int :=
  (range start stop).filter fun i => m.blkIsFree cfg i = some false

/-- The loop that collects them raises at a number outside the list of marks. -/
def collectUsed (cfg : Config) (m : BlockManager) (start stop : Int) : Option (List Int) :=
  if (range start stop).all fun i => (m.blkIsFree cfg i).isSome then
    some (m.usedIn cfg start stop)
  else none

/-- What the reorganization does to one entry of a table. -/
def moveEntry (removeMapping : List (Int × Block)) (refCount : Block → Nat) (b : Block) :
    Block × (Block → Nat) :=
  match removeMapping.lookup (b.number : Int) with
  | none => (b, refCount)
  | some toBlk =>
    (toBlk, Function.update (Function.update refCount toBlk (refCount b)) b 1)

/-- The entries of one table, in order. -/
def moveTable (removeMapping : List (Int × Block)) :
    BlockTable → (Block → Nat) → BlockTable × (Block → Nat)
  | [], refCount => ([], refCount)
  | b :: table, refCount =>
    let (b, refCount) := moveEntry removeMapping refCount b
    let (table, refCount) := moveTable removeMapping table refCount
    (b :: table, refCount)

/-- The entries of all tables, in order. -/
def moveTables (removeMapping : List (Int × Block)) :
    List (Nat × BlockTable) → (Block → Nat) → List (Nat × BlockTable) × (Block → Nat)
  | [], refCount => ([], refCount)
  | (seqId, table) :: tables, refCount =>
    let (table, refCount) := moveTable removeMapping table refCount
    let (tables, refCount) := moveTables removeMapping tables refCount
    ((seqId, table) :: tables, refCount)

/-- The free blocks below the new end with their positions in the free list. -/
def blksToMoveTo (m : BlockManager) (releaseRngStart : Int) : List (Nat × Block) :=
  ((m.freeBlocks .gpu).zipIdx.filter fun p => (p.1.number : Int) < releaseRngStart).map Prod.swap

/-- The positions of the other free blocks. -/
def blkToAllocateIndexInFreelist (m : BlockManager) (releaseRngStart : Int) : List Nat :=
  ((m.freeBlocks .gpu).zipIdx.filter
    fun p => !decide ((p.1.number : Int) < releaseRngStart)).map Prod.snd

/-- The marking loop `blk_is_free[blk.block_number]=True` raises on a number outside the list. -/
def freeNumbersInRange (cfg : Config) (m : BlockManager) : Bool :=
  (m.freeBlocks .gpu).all fun b => b.number < cfg.numTotalGpuBlocks

def reorganizeGpuBlocks (cfg : Config) (m : BlockManager) (numLayerToLoad : Nat) :
    Option (List (Int × Int) × BlockManager) := do
  let totBlkNum := cfg.blkNumPerLayer * numLayerToLoad
  let releaseRngStart := m.actualGpuBlkRngEnd - totBlkNum
  let releaseRngEnd := m.actualGpuBlkRngEnd
  if !m.freeNumbersInRange cfg then none
  else
    let stay ← m.collectUsed cfg 0 releaseRngStart
    let toRemove ← m.collectUsed cfg releaseRngStart releaseRngEnd
    let blksToMoveTo := m.blksToMoveTo releaseRngStart
    if blksToMoveTo.length < toRemove.length then none
    else
      let blksToMoveTo := blksToMoveTo.take toRemove.length
      let removeMapping := toRemove.zip (blksToMoveTo.map Prod.snd)
      let (tables, refCount) := moveTables removeMapping m.blockTables m.refCount
      let m' := { m with
        refCount := refCount
        blockTables := tables
        actualGpuBlkRngEnd := releaseRngStart
        cachedLayerNum := m.cachedLayerNum - numLayerToLoad
        loadMoreLayerOnCardNum := numLayerToLoad }
      let m' := m'.allocateGivenBlkIdxsInFreeList .gpu
        (m.blkToAllocateIndexInFreelist releaseRngStart ++ blksToMoveTo.map Prod.fst)
      let ret := removeMapping.map fun p => (p.1, (p.2.number : Int))
      return (Dict.update ret (stay.map fun i => (i, i)), m')

end BlockManager

end Mil.Blocks
