import GhostConsensus.Runtime

/-!
# The miner of the node

`Miner::start` of `miner.rs`: the calling thread spawns the workers, waits for all of them and reads
the result; the workers share `running`, `hashes`, `found_nonce` and `found_solution`. Each atomic
access is a step of its own, and the steps of the threads and the calls of `stop` interleave in any
order.
-/

namespace GhostConsensus

open MachineInt Transition

/-! ## Data -/

structure MiningBlockHeader (H : Type) where
  number : U32
  parentHash : H
  stateRoot : H
  extrinsicsRoot : H
  difficulty : U64

/-- The header of the pallet with the fields of a mined one, and a nonce. -/
def MiningBlockHeader.withNonce {H : Type} (header : MiningBlockHeader H) (nonce : U64)
    (validatorSignature : Option H) (pqcSignature : Option PqcSignature) : GhostBlockHeader H where
  number := header.number
  parentHash := header.parentHash
  stateRoot := header.stateRoot
  extrinsicsRoot := header.extrinsicsRoot
  nonce
  difficulty := header.difficulty
  validatorSignature
  pqcSignature

/-- The settings of a miner; `running` and `hashes`, which its calls share, are in `Mining`. -/
structure Miner where
  threads : ℕ
  targetDifficulty : U64

/-- The counters of `MiningStats`. -/
structure MiningStats where
  hashesComputed : U64
  blocksFound : U64
  deriving DecidableEq

/-- The next step of a worker thread. -/
inductive WorkerPc where
  | loadRunning
  | loadFoundSolution
  | hash
  | countHash (hashValue : U64)
  | storeFoundSolution
  | storeFoundNonce
  | storeRunning
  | advance
  | ended
  deriving DecidableEq

structure Worker where
  pc : WorkerPc
  nonce : U64
  deriving DecidableEq

/-- The next step of the thread that called `start`. -/
inductive StartPc where
  | storeRunning
  | spawn (threadId : ℕ)
  | join (threadId : ℕ)
  | loadHashes
  | loadBlocksFound (totalHashes : U64)
  | loadFoundSolution (stats : MiningStats)
  | loadFoundNonce (stats : MiningStats)
  | returned (result : Option (U64 × MiningStats))
  deriving DecidableEq

/-- A call of `start` in progress: the shared variables, the workers spawned so far, and where the
calling thread stands. -/
structure Mining where
  running : Bool
  hashes : U64
  foundNonce : U64
  foundSolution : Bool
  workers : List Worker
  pc : StartPc
  deriving DecidableEq

inductive MinerAction where
  | start
  | worker (threadId : ℕ)
  | stop

/-- `start` is called; `running` and `hashes` are as earlier calls left them. -/
def Mining.called (running : Bool) (hashes : U64) : Mining where
  running
  hashes
  foundNonce := 0
  foundSolution := false
  workers := []
  pc := .storeRunning

def Mining.setWorker (s : Mining) (threadId : ℕ) (w : Worker) : Mining :=
  { s with workers := s.workers.set threadId w }

section Step

variable {α H B : Type} (T : Config α H B) (miner : Miner) (header : MiningBlockHeader H)

/-- The target the workers compare with. -/
def Miner.target : U64 := minimum miner.targetDifficulty header.difficulty

/-- The leading 64 bits of the double hash of the header with a nonce. -/
def miningHash (nonce : U64) : U64 :=
  let firstHash := T.hashOf (.pow header.number header.parentHash header.stateRoot
    header.extrinsicsRoot nonce)
  let finalHash := T.hashOf (.hash firstHash)
  T.leadingU64 finalHash

/-- The next step of the worker `w`, which is thread `threadId`. -/
def workerStep (s : Mining) (threadId : ℕ) (w : Worker) : Option Mining :=
  match w.pc with
  | .loadRunning =>
    some (s.setWorker threadId { w with pc := if s.running then .loadFoundSolution else .ended })
  | .loadFoundSolution =>
    some (s.setWorker threadId { w with pc := if s.foundSolution then .ended else .hash })
  | .hash => some (s.setWorker threadId { w with pc := .countHash (miningHash T header w.nonce) })
  | .countHash hashValue =>
    some (({ s with hashes := s.hashes + 1 } : Mining).setWorker threadId
      { w with pc := if hashValue ≤ miner.target header then .storeFoundSolution else .advance })
  | .storeFoundSolution =>
    some (({ s with foundSolution := true } : Mining).setWorker threadId
      { w with pc := .storeFoundNonce })
  | .storeFoundNonce =>
    some (({ s with foundNonce := w.nonce } : Mining).setWorker threadId
      { w with pc := .storeRunning })
  | .storeRunning =>
    some (({ s with running := false } : Mining).setWorker threadId { w with pc := .ended })
  | .advance =>
    -- the pause after every 100,000 nonces is no step on the shared variables
    some (s.setWorker threadId
      { pc := .loadRunning, nonce := w.nonce + BitVec.ofNat 64 miner.threads })
  | .ended => none

/-- The next step of the calling thread. -/
def startStep (s : Mining) : Option Mining :=
  match s.pc with
  | .storeRunning => some { s with running := true, pc := .spawn 0 }
  | .spawn threadId =>
    if threadId < miner.threads then
      some { s with
        workers := s.workers ++ [{ pc := .loadRunning, nonce := BitVec.ofNat 64 threadId }]
        pc := .spawn (threadId + 1) }
    else some { s with pc := .join 0 }
  | .join threadId =>
    match s.workers[threadId]? with
    | some w => if w.pc = .ended then some { s with pc := .join (threadId + 1) } else none
    | none => some { s with pc := .loadHashes }
  | .loadHashes => some { s with pc := .loadBlocksFound s.hashes }
  | .loadBlocksFound hashesComputed =>
    let blocksFound := if s.foundSolution then 1 else 0
    some { s with pc := .loadFoundSolution { hashesComputed, blocksFound } }
  | .loadFoundSolution stats =>
    some { s with pc := if s.foundSolution then .loadFoundNonce stats else .returned none }
  | .loadFoundNonce stats => some { s with pc := .returned (some (s.foundNonce, stats)) }
  | .returned _ => none

/-- One step of the miner: of the calling thread, of a worker, or of someone who calls `stop`. -/
def mineStep (s : Mining) : MinerAction → Option Mining
  | .start => startStep miner s
  | .worker threadId => s.workers[threadId]?.bind (workerStep T miner header s threadId)
  | .stop => some { s with running := false }

end Step

/-! ## A miner with two winners -/

/-- A hash that gets smaller as the nonce grows. -/
def devMiningConfig : Config ℕ (List ℕ) (Accounts ℕ) :=
  { devConfig with leadingU64 := fun h => BitVec.ofNat 64 (10 - 4 * h.getD 3 0) }

def devMiner : Miner where
  threads := 2
  targetDifficulty := 7

def devMiningHeader : MiningBlockHeader (List ℕ) where
  number := 1
  parentHash := []
  stateRoot := []
  extrinsicsRoot := []
  difficulty := 6

/-- Both workers find a solution before either of them stores its nonce. -/
def devRace : List MinerAction :=
  [List.replicate 4 .start, List.replicate 9 (.worker 0), List.replicate 4 (.worker 1),
    [.worker 0, .worker 1, .worker 1, .worker 0, .stop, .worker 1, .worker 0],
    List.replicate 7 .start].flatten

end GhostConsensus
