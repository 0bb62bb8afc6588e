import Libumem.Lib.Scan
import Libumem.Lib.Triple
import Libumem.SizeClass.Tables

/-!
# The magazine layer of one cache

The traffic of objects between the client, the magazines and the slab layer: `_umem_cache_alloc`,
`_umem_cache_free` and their batch forms, the per-CPU and the restartable-sequence magazines, the
depot, the per-thread caches of `_umem_alloc` and `_umem_free`, the reaping and the resizing of
magazines.

The functions run in many threads. An event is what one thread does at one point: a critical
section of `cc_lock` or `ml_lock`, a committed restartable sequence, a turn of a loop over a
private magazine, or a call of the client. Everything that a thread keeps between two such points
is in the state, at a number that the thread chose. A field that `cc_lock` guards is read when it
is used: the sections that the lock makes one are then a part of the runs.

The restartable sequences are written in assembly. Here they are what the code says of them: each
commits with one store or has no effect; the detaching one empties the slot of its CPU, the
attaching one fills an empty slot.
-/

namespace Libumem.Magazine
open Lib SizeClass Arith
open Function (update)

abbrev Buf := Nat

abbrev Mag := Nat

/-- The flags of the cache, and the tables that `umem_cache_init` and `umem_ptc_init` leave. -/
structure Config where
  /-- `umem_max_ncpus`. -/
  ncpus : Nat
  /-- The column `mt_magsize` of `umem_magtype`. -/
  magsize : Nat → Nat
  cacheFlags : Word
  /-- The slot in `umem_alloc_sizes` of a cache of `umem_alloc_table`, which has `UMC_INTERNAL`: only
  the sized functions use it. -/
  slot : Option Nat
  umemAllocTable : AllocTable
  caches : Caches
  umemPtcMaxsize : Word
  /-- `umem_ptc_init` got to its end. -/
  ptcEnabled : Bool
  magsize_pos : ∀ t, 0 < magsize t
  cacheFlags_slot : ∀ i ∈ slot, caches.cacheFlags i = cacheFlags

namespace Config
variable (cfg : Config)

/-- `UMF_DEADBEEF`. -/
def deadbeef : Bool := cfg.cacheFlags &&& 0x2 ≠ 0

/-- `UMF_REDZONE`. -/
def redzone : Bool := cfg.cacheFlags &&& 0x4 ≠ 0

/-- `UMF_NOMAGAZINE`. -/
def noMagazine : Bool := cfg.cacheFlags &&& 0x20 ≠ 0

def internal : Bool := cfg.slot.isSome

/-- The requests of an index go to the cache, and have a bin in `umem_ptc_bin_table`. -/
def Binned (hooked : Bool) (idx : Nat) : Prop :=
  idx < allocTableSize ∧ cfg.slot ≠ none ∧ cfg.umemAllocTable idx = cfg.slot ∧
    0 ≤ umemPtcBinTable cfg.ptcEnabled hooked cfg.umemAllocTable cfg.caches cfg.umemPtcMaxsize idx

instance (hooked : Bool) (idx : Nat) : Decidable (cfg.Binned hooked idx) :=
  inferInstanceAs (Decidable (_ ∧ _))

/-- `UMF_BUFTAG`. -/
def buftag : Bool := cfg.deadbeef || cfg.redzone

end Config

/-- What a thread is about to do with a magazine that is its own. -/
inductive Job
  | popped (full : Bool)
  | arm (full : Bool)
  | back (full : Bool)
  | drain (valid : Bool)
  | push (full : Bool)
  | destroy
  | stale
  | shell
  deriving DecidableEq, Repr

/-- A variable that holds a magazine. -/
inductive Place
  | loaded (cpu : Nat)
  | ploaded (cpu : Nat)
  | rseq (cpu : Nat)
  | ptcLoaded (thread : Nat)
  | ptcPrevious (thread : Nat)
  | job (id : Nat) (job : Job)
  deriving DecidableEq, Repr

/-- A magazine with its count of rounds `hi`; a loop has done with the rounds below `lo`. -/
structure Held where
  mag : Mag
  lo : Nat
  hi : Nat
  deriving DecidableEq, Repr

/-- The magazines. A magazine is in a variable or on a list of the depot, which has a full and an
empty list for each stripe. -/
structure Layer where
  /-- `cache_magtype`. -/
  magtype : Nat
  /-- The magtype whose cache a magazine was allocated from. -/
  kind : Mag → Nat
  shells : List Mag
  /-- `mag_round`, without the mangling of the pointers. -/
  round : Mag → Nat → Option Buf
  hold : Place → Option Held
  depot : Bool → Nat → List Mag
  ccMagsize : Nat → Nat

/-- `umem_mag_capacity`. -/
def Layer.capacity (cfg : Config) (ly : Layer) (mp : Mag) : Nat := cfg.magsize (ly.kind mp)

/-- `UMEM_MAGAZINE_VALID`. -/
def Layer.Valid (ly : Layer) (mp : Mag) : Prop := ly.kind mp = ly.magtype

instance (ly : Layer) (mp : Mag) : Decidable (ly.Valid mp) := inferInstanceAs (Decidable (_ = _))

def Layer.setHold (ly : Layer) (p : Place) (h : Option Held) : Layer :=
  { ly with hold := update ly.hold p h }

def Layer.setRound (ly : Layer) (mp : Mag) (r : Nat) (b : Option Buf) : Layer :=
  { ly with round := update ly.round mp (update (ly.round mp) r b) }

def Layer.setDepot (ly : Layer) (full : Bool) (j : Nat) (l : List Mag) : Layer :=
  { ly with depot := update ly.depot full (update (ly.depot full) j l) }

/-- What a thread is about to do with an object that is its own. -/
inductive Task
  | raw (batch : Bool)
  | got
  | ready (batch : Bool)
  | freeing (batch : Bool)
  deriving DecidableEq, Repr

structure Hand where
  id : Nat
  task : Task
  deriving DecidableEq, Repr

/-- The objects outside the magazines. -/
structure Flow where
  hand : Hand → Option Buf
  /-- The slots of the bin of each thread, the top one first. -/
  bin : Nat → List Buf
  client : List Buf
  /-- What the slab layer has handed out and not taken back. -/
  allocated : List Buf

inductive BxStat
  | free
  | alloc
  deriving DecidableEq, Repr

/-- The buftag of a buffer and its contents, as far as they are checked. -/
structure Tag where
  bxstat : BxStat
  /-- The size that the sized functions encode over the pattern. -/
  redzone : Option Nat
  /-- The buffer is filled with `UMEM_FREE_PATTERN`. -/
  filled : Bool
  deriving DecidableEq, Repr

/-- What happens to a buffer. -/
inductive Act
  | slabAlloc
  | construct (ok : Bool)
  | handOut
  | giveBack
  | destruct
  | slabFree
  deriving DecidableEq, Repr

structure Memory where
  /-- What happened to each buffer, the last thing first. -/
  history : Buf → List Act
  tag : Buf → Tag
  /-- The size that the client asked for. -/
  asked : Buf → Nat

inductive Umerr
  | modified
  | redzone
  | dupfree
  | badaddr
  | badbuftag
  | badsize
  deriving DecidableEq, Repr

/-- What is reported to the user and to the hooks. -/
structure Log where
  hooked : Bool
  errors : List (Umerr × Buf)
  allocEvents : List Buf
  freeEvents : List Buf

structure State where
  layer : Layer
  flow : Flow
  memory : Memory
  log : Log

abbrev M := StateT State Option

def alterLayer (f : Layer → Layer) : M Unit := alter fun s => { s with layer := f s.layer }

def alterFlow (f : Flow → Flow) : M Unit := alter fun s => { s with flow := f s.flow }

def alterMemory (f : Memory → Memory) : M Unit := alter fun s => { s with memory := f s.memory }

def alterLog (f : Log → Log) : M Unit := alter fun s => { s with log := f s.log }

/-- Do something under a condition. -/
def only (c : Bool) (f : M Unit) : M Unit := if c then f else pure ()

/-- A check that is made under a condition. -/
def checkIf (c : Bool) (f : M Bool) : M Bool := if c then f else pure true

def orFail {α : Type} (r : State → Option α) : M α := fun s => (r s).map fun a => (a, s)

def record (b : Buf) (a : Act) : M Unit :=
  alterMemory fun m => { m with history := update m.history b (a :: m.history b) }

def setTag (b : Buf) (t : Tag) : M Unit :=
  alterMemory fun m => { m with tag := update m.tag b t }

def umemError (e : Umerr) (b : Buf) : M Unit :=
  alterLog fun l => { l with errors := (e, b) :: l.errors }

def umemHookAlloc (b : Buf) : M Unit :=
  alterLog fun l => { l with allocEvents := b :: l.allocEvents }

def umemHookFree (b : Buf) : M Unit :=
  alterLog fun l => { l with freeEvents := b :: l.freeEvents }

def takeHand (k : Hand) : M Buf := do
  let b ← orFail fun s => s.flow.hand k
  alterFlow fun fl => { fl with hand := update fl.hand k none }
  return b

def putHand (k : Hand) (b : Buf) : M Unit := do
  let old ← reads fun s => s.flow.hand k
  require (old = none)
  alterFlow fun fl => { fl with hand := update fl.hand k (some b) }

def popBin (t : Nat) : M Buf := do
  let b ← orFail fun s => (s.flow.bin t).head?
  alterFlow fun fl => { fl with bin := update fl.bin t (fl.bin t).tail }
  return b

def pushBin (t : Nat) (b : Buf) : M Unit :=
  alterFlow fun fl => { fl with bin := update fl.bin t (b :: fl.bin t) }

def takeClient (b : Buf) : M Unit := do
  let client ← reads fun s => s.flow.client
  require (b ∈ client)
  alterFlow fun fl => { fl with client := fl.client.erase b }

def putClient (b : Buf) : M Unit :=
  alterFlow fun fl => { fl with client := b :: fl.client }

/-- The slab layer, which has the results of its own development: it hands out a buffer that is not
allocated. -/
def umemSlabAlloc (b : Buf) : M Unit := do
  let allocated ← reads fun s => s.flow.allocated
  require (b ∉ allocated)
  alterFlow fun fl => { fl with allocated := b :: fl.allocated }
  record b .slabAlloc

def umemSlabFree (b : Buf) : M Unit := do
  let allocated ← reads fun s => s.flow.allocated
  if b ∈ allocated then
    alterFlow fun fl => { fl with allocated := fl.allocated.erase b }
    record b .slabFree
  else
    umemError .badaddr b

def getMag (p : Place) : M Held := orFail fun s => s.layer.hold p

def setMag (p : Place) (h : Option Held) : M Unit :=
  alterLayer fun ly => ly.setHold p h

def takeMag (p : Place) : M Held := do
  let h ← getMag p
  setMag p none
  return h

def putMag (p : Place) (h : Held) : M Unit := do
  let old ← reads fun s => s.layer.hold p
  require (old = none)
  setMag p (some h)

def putMagOf (p : Place) : Option Held → M Unit
  | some h => putMag p h
  | none => pure ()

/-- `mag_round[--rounds]`. -/
def popRound (p : Place) : M Buf := do
  let h ← getMag p
  require (0 < h.hi)
  let b ← orFail fun s => s.layer.round h.mag (h.hi - 1)
  setMag p (some { h with hi := h.hi - 1 })
  return b

/-- `mag_round[rounds++]`, in a magazine with room for `limit` rounds. -/
def pushRound (p : Place) (limit : Layer → Mag → Nat) (b : Buf) : M Unit := do
  let h ← getMag p
  let n ← reads fun s => limit s.layer h.mag
  require (h.hi < n)
  alterLayer fun ly => ly.setRound h.mag h.hi (some b)
  setMag p (some { h with hi := h.hi + 1 })

/-- A turn of a loop over the rounds, which may put `NULL` in the place of the round. -/
def nextRound (p : Place) (clear : Bool) : M (Option Buf) := do
  let h ← getMag p
  require (h.lo < h.hi)
  let b ← reads fun s => s.layer.round h.mag h.lo
  alterLayer fun ly => ly.setRound h.mag h.lo (if clear then none else b)
  setMag p (some { h with lo := h.lo + 1 })
  return b

/-- `umem_depot_pop`, `umem_depot_pop_trylock` and `umem_depot_reap_pop`. -/
def umemDepotPop (full : Bool) (j : Nat) : M Mag := do
  let mp ← orFail fun s => (s.layer.depot full j).head?
  alterLayer fun ly => ly.setDepot full j (ly.depot full j).tail
  return mp

/-- `umem_depot_push` and `umem_depot_push_trylock`. -/
def umemDepotPush (full : Bool) (j : Nat) (mp : Mag) : M Unit :=
  alterLayer fun ly => ly.setDepot full j (mp :: ly.depot full j)

/-- A new magazine, from the cache of the current magtype. -/
def allocShell (mp : Mag) : M Unit := do
  let shells ← reads fun s => s.layer.shells
  require (mp ∉ shells)
  alterLayer fun ly =>
    { ly with
      shells := mp :: ly.shells
      kind := update ly.kind mp ly.magtype
      round := update ly.round mp fun _ => none }

def freeShell (mp : Mag) : M Unit :=
  alterLayer fun ly => { ly with shells := ly.shells.erase mp }

section
variable (cfg : Config)

/-- What the constructor returns, or that `mtbf` made it fail beforehand. -/
inductive Made
  | ok
  | fails
  | mtbf
  deriving DecidableEq, Repr

def umemCacheAllocDebug (b : Buf) (made : Made) : M Bool := do
  let t ← reads fun s => s.memory.tag b
  if t.bxstat ≠ .free then
    umemError .badbuftag b
    return false
  else if cfg.deadbeef = true ∧ t.filled = false then
    setTag b { t with bxstat := .alloc, redzone := none }
    umemError .modified b
    return false
  else
    setTag b ⟨.alloc, none, t.filled && !cfg.deadbeef⟩
    match made with
    | .ok =>
      record b (.construct true)
      return true
    | .fails =>
      record b (.construct false)
      setTag b ⟨.free, none, true⟩
      umemSlabFree b
      return false
    | .mtbf =>
      setTag b ⟨.free, none, true⟩
      umemSlabFree b
      return false

def umemCacheFreeDebug (b : Buf) : M Bool := do
  let t ← reads fun s => s.memory.tag b
  if t.bxstat ≠ .alloc then
    umemError .dupfree b
    return false
  else if t.redzone ≠ none then
    setTag b { t with bxstat := .free }
    umemError .redzone b
    return false
  else
    record b .destruct
    setTag b ⟨.free, none, t.filled || cfg.deadbeef⟩
    return true

/-- `_umem_cache_free`, up to the point where the object goes to a magazine. The flag `UMF_HOOKED`
of a cache is set while the hooks are on and the cache is not internal. -/
def umemCacheFree (id : Nat) (b : Buf) : M Unit := do
  let checked ← checkIf cfg.buftag (umemCacheFreeDebug cfg b)
  let hooked ← reads fun s => s.log.hooked
  only checked do
    only (hooked && !cfg.internal) (umemHookFree b)
    putHand ⟨id, .freeing false⟩ b

/-- `umem_free_redzone_ok`. -/
def umemFreeRedzoneOk (b : Buf) (size : Nat) : M Bool := do
  let t ← reads fun s => s.memory.tag b
  if t.redzone ≠ some size then
    umemError (if t.filled then .dupfree else .badsize) b
    return false
  else
    setTag b { t with redzone := none }
    return true

/-- The client frees an object, with the size that it asked for: `umem_cache_free`, or `umem_free`
past the per-thread cache. -/
def clientFree (id : Nat) (b : Buf) : M Unit := do
  takeClient b
  record b .giveBack
  let hooked ← reads fun s => s.log.hooked
  let size ← reads fun s => s.memory.asked b
  let checked ← checkIf (cfg.internal && cfg.buftag) (umemFreeRedzoneOk b size)
  only checked do
    only (hooked && cfg.internal) (umemHookFree b)
    umemCacheFree cfg id b

/-- The last part of `_umem_cache_alloc`, of the sized functions around it, and of
`umem_cache_alloc_batch`. -/
def clientAlloc (b : Buf) (size : Nat) : M Unit := do
  record b .handOut
  alterMemory fun m => { m with asked := update m.asked b size }
  let hooked ← reads fun s => s.log.hooked
  only (hooked && !cfg.internal) (umemHookAlloc b)
  let t ← reads fun s => s.memory.tag b
  only (cfg.internal && cfg.buftag) (setTag b { t with redzone := some size })
  only (hooked && cfg.internal) (umemHookAlloc b)
  putClient b

/-- The client's part of an operation that the per-thread cache serves. The bins are out of use
while the hooks are on. -/
def ptcAlloc (b : Buf) (size : Nat) : M Unit := do
  record b .handOut
  alterMemory fun m => { m with asked := update m.asked b size }
  putClient b

def ptcFree (b : Buf) : M Unit := do
  takeClient b
  record b .giveBack

/-- A buffer of the slab layer that is not constructed yet. -/
def makeObject (id : Nat) (batch : Bool) (made : Made) (b : Buf) : M Unit := do
  if cfg.buftag && !batch then
    let ok ← umemCacheAllocDebug cfg b made
    only ok (putHand ⟨id, .ready batch⟩ b)
  else if made = .ok then
    record b (.construct true)
    putHand ⟨id, .ready batch⟩ b
  else
    record b (.construct false)
    umemSlabFree b

/-- The test that follows a pop from the depot; `umem_depot_destroy_stale` starts here. -/
def checkPopped (id : Nat) (full : Bool) (valid : M Unit) (mp : Mag) : M Unit := do
  let ok ← reads fun s => decide (s.layer.Valid mp)
  let n ← reads fun s => s.layer.capacity cfg mp
  if ok then valid
  else if full then putMag (.job id .stale) ⟨mp, 0, n⟩
  else freeShell mp

/-- `umem_ptc_mag_return` and `umem_ptc_mag_return_trylock`. -/
def umemPtcMagReturn (id : Nat) (full : Bool) (h : Held) : M Unit := do
  let ok ← reads fun s => decide (s.layer.Valid h.mag)
  let n ← reads fun s => s.layer.capacity cfg h.mag
  if ok then
    if full = true ∧ h.hi = n then putMag (.job id (.push true)) h
    else putMag (.job id (.drain true)) h
  else
    putMag (.job id (.drain false)) h

/-- A turn of `umem_magazine_destroy`. -/
def umemMagazineDestroyTurn (b : Buf) : M Unit := do
  let t ← reads fun s => s.memory.tag b
  if cfg.deadbeef = true ∧ t.filled = false then
    umemError .modified b
  else
    only (!cfg.buftag) (record b .destruct)
    umemSlabFree b

/-- Exchange the magazines of two variables. -/
def exchange (p q : Place) : M Unit :=
  alterLayer fun ly => (ly.setHold p (ly.hold q)).setHold q (ly.hold p)

end

/-- What one thread does at one point. -/
inductive Event
  | slabAlloc (id : Nat) (b : Buf) (batch : Bool)
  | construct (id : Nat) (batch : Bool) (made : Made)
  | rseqPop (id : Nat) (cpu : Nat)
  | cpuPop (id : Nat) (cpu : Nat) (batch : Bool)
  | check (id : Nat) (made : Made)
  | handOut (id : Nat) (batch : Bool) (size : Nat)
  | free (id : Nat) (b : Buf)
  | freeBatch (id : Nat) (b : Buf)
  | rseqPush (id : Nat) (cpu : Nat)
  | cpuPush (id : Nat) (batch : Bool) (cpu : Nat)
  | toSlab (id : Nat) (batch : Bool)
  | swapAlloc (cpu : Nat)
  | swapFree (cpu : Nat)
  | retire (cpu : Nat) (full : Bool) (stripe : Nat)
  | reload (cpu : Nat) (id : Nat) (full : Bool)
  | depotPop (id : Nat) (full : Bool) (stripe : Nat)
  | depotCheck (id : Nat) (full : Bool)
  | giveUp (id : Nat) (full : Bool) (stripe : Nat)
  | detach (id : Nat) (cpu : Nat)
  | attach (id : Nat) (full : Bool) (cpu : Nat)
  | magReturn (id : Nat) (full : Bool)
  | drain (id : Nat) (valid : Bool) (work : Nat)
  | drained (id : Nat) (valid : Bool)
  | depotPush (id : Nat) (full : Bool) (stripe : Nat)
  | reap (id : Nat) (full : Bool)
  | destroy (id : Nat)
  | destroyed (id : Nat)
  | stale (id : Nat)
  | staleDone (id : Nat)
  | newShell (id : Nat) (mp : Mag) (cpu : Nat)
  | primeShell (id : Nat) (mp : Mag) (idx : Nat)
  | placeShell (id : Nat) (cpu : Nat) (stripe : Nat)
  | purge (cpu : Nat) (id : Nat) (id' : Nat)
  | takeRseq (cpu : Nat) (id : Nat)
  | bump
  | enable (cpu : Nat)
  | hooks (on : Bool)
  | binPop (thread : Nat) (size : Nat)
  | binPush (thread : Nat) (b : Buf)
  | binFill (thread : Nat) (id : Nat) (idx : Nat)
  | binFlush (thread : Nat) (id : Nat) (batch : Bool)
  | ptcPop (thread : Nat) (size : Nat)
  | ptcPush (thread : Nat) (b : Buf)
  | ptcSwap (thread : Nat)
  | ptcRetire (thread : Nat) (id : Nat)
  | ptcReload (thread : Nat) (id : Nat) (idx : Nat)
  | ptcLoadEmpty (thread : Nat) (id : Nat) (job : Job) (idx : Nat)
  | ptcReturn (thread : Nat) (previous : Bool) (id : Nat)
  deriving DecidableEq, Repr

variable (cfg : Config)

/-- The count of rounds, which is not positive when there is no magazine. -/
def rounds (h : Option Held) : Int := (h.map fun h => (h.hi : Int)).getD (-1)

/-- The request has a bin in the table that is published. -/
def ptcOn (idx : Nat) : M Unit := do
  let hooked ← reads fun s => s.log.hooked
  require (cfg.Binned hooked idx)

def step : Event → M Unit
  -- `_umem_cache_alloc` and `umem_cache_alloc_batch`
  | .slabAlloc id b batch => do
    require (batch = true → cfg.internal = false)
    umemSlabAlloc b
    putHand ⟨id, .raw batch⟩ b
  | .construct id batch made => do
    let b ← takeHand ⟨id, .raw batch⟩
    makeObject cfg id batch made b
  | .rseqPop id cpu => do
    let b ← popRound (.rseq cpu)
    putHand ⟨id, .got⟩ b
  | .cpuPop id cpu batch => do
    require (batch = true → cfg.internal = false)
    let b ← popRound (.loaded cpu)
    putHand ⟨id, if batch then .ready true else .got⟩ b
  | .check id made => do
    let b ← takeHand ⟨id, .got⟩
    if cfg.buftag then
      let ok ← umemCacheAllocDebug cfg b made
      only ok (putHand ⟨id, .ready false⟩ b)
    else
      putHand ⟨id, .ready false⟩ b
  | .handOut id batch size => do
    let b ← takeHand ⟨id, .ready batch⟩
    clientAlloc cfg b size
  -- `_umem_cache_free` and `umem_cache_free_batch`
  | .free id b => clientFree cfg id b
  | .freeBatch id b => do
    require (cfg.internal = false)
    takeClient b
    record b .giveBack
    let hooked ← reads fun s => s.log.hooked
    only hooked (umemHookFree b)
    putHand ⟨id, .freeing true⟩ b
  | .rseqPush id cpu => do
    let b ← takeHand ⟨id, .freeing false⟩
    pushRound (.rseq cpu) (Layer.capacity cfg) b
  | .cpuPush id batch cpu => do
    let b ← takeHand ⟨id, .freeing batch⟩
    pushRound (.loaded cpu) (fun ly _ => ly.ccMagsize cpu) b
  | .toSlab id batch => do
    let b ← takeHand ⟨id, .freeing batch⟩
    only (!cfg.buftag || batch) (record b .destruct)
    umemSlabFree b
  -- the CPU layer
  | .swapAlloc cpu => do
    let h ← reads fun s => s.layer.hold (.loaded cpu)
    let p ← reads fun s => s.layer.hold (.ploaded cpu)
    require (rounds h ≤ 0 ∧ 0 < rounds p)
    exchange (.loaded cpu) (.ploaded cpu)
  | .swapFree cpu => do
    let h ← reads fun s => s.layer.hold (.loaded cpu)
    let p ← reads fun s => s.layer.hold (.ploaded cpu)
    let n ← reads fun s => s.layer.ccMagsize cpu
    require (¬ (0 ≤ rounds h ∧ rounds h < n) ∧ rounds p = 0)
    exchange (.loaded cpu) (.ploaded cpu)
  | .retire cpu full stripe => do
    let p ← takeMag (.ploaded cpu)
    require (if full then p.hi ≠ 0 else p.hi = 0)
    umemDepotPush full stripe p.mag
  | .reload cpu id full => do
    let fmp ← takeMag (.job id (.arm full))
    let h ← reads fun s => s.layer.hold (.loaded cpu)
    let p ← reads fun s => s.layer.hold (.ploaded cpu)
    let n ← reads fun s => s.layer.ccMagsize cpu
    let ok ← reads fun s => decide (s.layer.Valid fmp.mag)
    require (n ≠ 0 ∧ ok = true ∧ p = none)
    require (if full then rounds h ≤ 0 else ¬ (0 ≤ rounds h ∧ rounds h < n))
    exchange (.loaded cpu) (.ploaded cpu)
    putMag (.loaded cpu) ⟨fmp.mag, 0, if full then n else 0⟩
  -- the depot
  | .depotPop id full stripe => do
    let mp ← umemDepotPop full stripe
    let n ← reads fun s => s.layer.capacity cfg mp
    putMag (.job id (.popped full)) ⟨mp, 0, if full then n else 0⟩
  | .depotCheck id full => do
    let h ← takeMag (.job id (.popped full))
    checkPopped cfg id full (putMag (.job id (.arm full)) h) h.mag
  | .giveUp id full stripe => do
    let h ← takeMag (.job id (.arm full))
    umemDepotPush full stripe h.mag
  | .depotPush id full stripe => do
    let h ← takeMag (.job id (.push full))
    umemDepotPush full stripe h.mag
  -- `umem_rseq_reload`
  | .detach id cpu => do
    let old ← takeMag (.rseq cpu)
    putMag (.job id (.back true)) old
  | .attach id full cpu => do
    let h ← takeMag (.job id (.arm full))
    putMag (.rseq cpu) h
  -- `umem_ptc_mag_return` and `umem_mag_drain`
  | .magReturn id full => do
    let h ← takeMag (.job id (.back full))
    umemPtcMagReturn cfg id full h
  | .drain id valid work => do
    let b ← nextRound (.job id (.drain valid)) true
    match b with
    | some b => umemCacheFree cfg work b
    | none => pure ()
  | .drained id valid => do
    let h ← takeMag (.job id (.drain valid))
    require (h.lo = h.hi)
    if valid then putMag (.job id (.push false)) ⟨h.mag, 0, 0⟩ else freeShell h.mag
  -- `umem_maglist_ws_reap`, with the list already popped
  | .reap id full => do
    let h ← takeMag (.job id (.popped full))
    let n ← reads fun s => cfg.magsize s.layer.magtype
    checkPopped cfg id full (putMag (.job id .destroy) ⟨h.mag, 0, if full then n else 0⟩) h.mag
  -- `umem_magazine_destroy` and `umem_depot_destroy_stale`
  | .destroy id => do
    let b ← nextRound (.job id .destroy) false
    match b with
    | some b => umemMagazineDestroyTurn cfg b
    | none => pure ()
  | .destroyed id => do
    let h ← takeMag (.job id .destroy)
    require (h.lo = h.hi)
    freeShell h.mag
  | .stale id => do
    let b ← nextRound (.job id .stale) true
    match b with
    | some b => umemSlabFree b
    | none => pure ()
  | .staleDone id => do
    let h ← takeMag (.job id .stale)
    require (h.lo = h.hi)
    freeShell h.mag
  -- a new magazine, in `_umem_cache_free` and in `umem_ptc_mag_prime`
  | .newShell id mp cpu => do
    let n ← reads fun s => s.layer.ccMagsize cpu
    require (n ≠ 0)
    allocShell mp
    putMag (.job id .shell) ⟨mp, 0, 0⟩
  | .primeShell id mp idx => do
    ptcOn cfg idx
    allocShell mp
    putMag (.job id .shell) ⟨mp, 0, 0⟩
  | .placeShell id cpu stripe => do
    let h ← takeMag (.job id .shell)
    let n ← reads fun s => s.layer.ccMagsize cpu
    let size ← reads fun s => s.layer.capacity cfg h.mag
    if n = size then umemDepotPush false stripe h.mag else freeShell h.mag
  -- `umem_cache_magazine_purge`, `umem_cache_magazine_resize`, `umem_cache_destroy`
  | .purge cpu id id' => do
    let loaded ← reads fun s => s.layer.hold (.loaded cpu)
    let ploaded ← reads fun s => s.layer.hold (.ploaded cpu)
    setMag (.loaded cpu) none
    setMag (.ploaded cpu) none
    alterLayer fun ly => { ly with ccMagsize := update ly.ccMagsize cpu 0 }
    putMagOf (.job id .destroy) loaded
    putMagOf (.job id' .destroy) ploaded
  | .takeRseq cpu id => do
    let h ← takeMag (.rseq cpu)
    putMag (.job id .destroy) h
  | .bump => do
    let sizes ← reads fun s => s.layer.ccMagsize
    require (∀ cpu < cfg.ncpus, sizes cpu = 0)
    alterLayer fun ly => { ly with magtype := ly.magtype + 1 }
  | .enable cpu => do
    require (cpu < cfg.ncpus ∧ cfg.noMagazine = false)
    alterLayer fun ly =>
      { ly with ccMagsize := update ly.ccMagsize cpu (cfg.magsize ly.magtype) }
  | .hooks on => alterLog fun l => { l with hooked := on }
  -- the per-thread cache
  | .binPop thread size => do
    ptcOn cfg ((size - 1) / umemAlign)
    let b ← popBin thread
    ptcAlloc b size
  | .binPush thread b => do
    let size ← reads fun s => s.memory.asked b
    ptcOn cfg ((size - 1) / umemAlign)
    ptcFree b
    pushBin thread b
  | .binFill thread id idx => do
    ptcOn cfg idx
    let b ← takeHand ⟨id, .ready false⟩
    pushBin thread b
  | .binFlush thread id batch => do
    let b ← popBin thread
    if batch then putHand ⟨id, .freeing true⟩ b else umemCacheFree cfg id b
  | .ptcPop thread size => do
    ptcOn cfg ((size - 1) / umemAlign)
    let b ← popRound (.ptcLoaded thread)
    ptcAlloc b size
  | .ptcPush thread b => do
    let size ← reads fun s => s.memory.asked b
    ptcOn cfg ((size - 1) / umemAlign)
    ptcFree b
    pushRound (.ptcLoaded thread) (Layer.capacity cfg) b
  | .ptcSwap thread => do
    let h ← reads fun s => s.layer.hold (.ptcLoaded thread)
    let p ← getMag (.ptcPrevious thread)
    let n ← reads fun s => s.layer.capacity cfg p.mag
    let full ← reads fun s => decide (∀ x ∈ h, s.layer.capacity cfg x.mag ≤ x.hi)
    require (rounds h ≤ 0 ∧ 0 < p.hi ∨ full = true ∧ p.hi < n)
    exchange (.ptcLoaded thread) (.ptcPrevious thread)
  | .ptcRetire thread id => do
    let p ← takeMag (.ptcPrevious thread)
    require (p.hi = 0)
    putMag (.job id (.back false)) p
  | .ptcReload thread id idx => do
    require (cfg.Binned false idx)
    let fmp ← takeMag (.job id (.arm true))
    let p ← reads fun s => s.layer.hold (.ptcPrevious thread)
    require (p = none)
    exchange (.ptcLoaded thread) (.ptcPrevious thread)
    putMag (.ptcLoaded thread) fmp
  | .ptcLoadEmpty thread id job idx => do
    require (cfg.Binned false idx ∧ (job = .arm false ∨ job = .shell))
    let emp ← takeMag (.job id job)
    putMag (.ptcLoaded thread) emp
  | .ptcReturn thread previous id => do
    let h ← takeMag (if previous then .ptcPrevious thread else .ptcLoaded thread)
    putMag (.job id (.back true)) h

def next (s : State) (e : Event) : Option State := (step cfg e s).map Prod.snd

def Step (s : State) (e : Event) (t : State) : Prop := next cfg s e = some t

/-- A new cache: no magazine, every buffer in the slab layer and tagged free. -/
def initial (magtype : Nat) : State where
  layer :=
    { magtype := magtype, kind := fun _ => 0, shells := [], round := fun _ _ => none,
      hold := fun _ => none, depot := fun _ _ => [], ccMagsize := fun _ => 0 }
  flow := { hand := fun _ => none, bin := fun _ => [], client := [], allocated := [] }
  memory := { history := fun _ => [], tag := fun _ => ⟨.free, none, true⟩, asked := fun _ => 0 }
  log :=
    { hooked := false, errors := [], allocEvents := [], freeEvents := [] }

variable {s t : State} {e : Event}

theorem exists_run {β : Type*} (s : State) (l : List Event) (g : State → β) (b : β)
    (h : (replay (fun _ _ => True) (next cfg) s l).map g = some b) :
    ∃ t, Runs (Step cfg) s l t ∧ g t = b := by
  obtain ⟨t, ht, hb⟩ := exists_runs s l g b h
  exact ⟨t, ht.mono fun _ _ _ hst => hst.2, hb⟩

variable {cfg}

theorem Step.run (h : Step cfg s e t) : step cfg e s = some ((), t) := by
  obtain ⟨⟨u, m⟩, hm, heq⟩ := Option.map_eq_some_iff.mp h
  cases heq
  exact hm

end Libumem.Magazine
