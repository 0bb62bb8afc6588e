import Libumem.Lib.TwoRun
import Libumem.SizeClass.Sizes

/-!
# Options and their processing

The items that `UMEM_DEBUG`, `UMEM_OPTIONS` and `UMEM_LOGGING` may hold, and what one of them does
once it is found: it sets a flag, stores a number or calls a processor of its own. A C string is the
list of its characters, and a run that reads through a null pointer has no result.
-/

namespace Libumem.Env
open Arith SizeClass

abbrev CString := List Char

abbrev Uint := BitVec 32

/-- The variables of type `uint_t` that an item can set. -/
inductive UintVar
  | umemMaxNcpus
  | umemDepotContention
  | umemFlags
  | umemRseqDisabled
  | umemReapInterval
  | umemMagazineTuning
  | umemReclaimEnabled
  | umemReclaimDelay
  | umemPtcEnabled
  | umemOwnershipDebug
  | umemIntrospectEnabled
  | umemAbort
  | umemStackDepth
  | umemOutput
  | umemMtbf
  | umemLogging
  | vmemBackend
  | vmemAllocator
  deriving DecidableEq, Repr

/-- The variables of type `size_t` that an item can set. -/
inductive SizeVar
  | umemSizeTempval
  | vmemSbrkMinalloc
  | vmemSbrkPagesize
  | vmemMmapGuardMin
  | umemPtcSize
  | umemPtcMaxsize
  | umemContentMaxsave
  | umemMinfirewall
  | umemMaxverify
  | umemTransactionLogSize
  | umemContentLogSize
  | umemFailureLogSize
  | umemSlabLogSize
  deriving DecidableEq, Repr

/-- Everything that the options can configure. -/
structure Config where
  uints : UintVar → Uint
  sizes : SizeVar → Word
  umemAllocSizes : Sizes
  umemProfileSpec : CString

/-- The configuration, the count of options that the secure mode dropped, and the log. -/
structure State where
  config : Config
  umemEnvSecureIgnored : Uint
  log : List String

abbrev Proc := StateT State Option

/-- The read or write through a null pointer. -/
def fault {α : Type} : Proc α := fun _ => none

def readConfig : Proc Config := fun s => some (s.config, s)

def modifyConfig (f : Config → Config) : Proc Unit :=
  fun s => some ((), { s with config := f s.config })

def logMessage (text : String) : Proc Unit := fun s => some ((), { s with log := s.log ++ [text] })

def Config.setUint (c : Config) (v : UintVar) (x : Uint) : Config :=
  { c with uints := Function.update c.uints v x }

def Config.setSize (c : Config) (v : SizeVar) (x : Word) : Config :=
  { c with sizes := Function.update c.sizes v x }

inductive ItemType
  | invalid
  | flag
  | clearflag
  | optuint
  | uint
  | optsize
  | size
  | special
  deriving DecidableEq, Repr

/-- The processors that `item_special` can point to. -/
inductive Special
  | umemBackendProcess
  | umemAllocatorProcess
  | umemReapIntervalProcess
  | umemSizeProcess
  | umemProfileProcess
  | umemLogProcess
  deriving DecidableEq, Repr

/-- An entry of an item list, without its stability and its description. -/
structure Item where
  name : String
  type : ItemType
  flagTarget : Option UintVar := none
  flagValue : Uint := 0
  uintTarget : Option UintVar := none
  sizeTarget : Option SizeVar := none
  special : Option Special := none
  secureUnsafe : Bool := false
  deriving DecidableEq, Repr

def umfAudit : Uint := 0x1
def umfDeadbeef : Uint := 0x2
def umfRedzone : Uint := 0x4
def umfContents : Uint := 0x8
def umfChecksignal : Uint := 0x10
def umfNomagazine : Uint := 0x20
def umfFirewall : Uint := 0x40
def umfLite : Uint := 0x100
def umfRandomize : Uint := 0x400
def umfChecknull : Uint := 0x1000

/-- The switches of the build that the item lists depend on. -/
structure Build where
  win32 : Bool
  umemIntrospect : Bool

def umemOptionsItems (build : Build) : List Item :=
  [{ name := "backend", type := .special, special := some .umemBackendProcess,
      secureUnsafe := true },
    { name := "allocator", type := .special, special := some .umemAllocatorProcess },
    { name := "concurrency", type := .uint, uintTarget := some .umemMaxNcpus },
    { name := "max_contention", type := .uint, uintTarget := some .umemDepotContention },
    { name := "nomagazines", type := .flag, flagTarget := some .umemFlags,
      flagValue := umfNomagazine },
    { name := "norseq", type := .flag, flagTarget := some .umemRseqDisabled, flagValue := 1 },
    { name := "reap_interval", type := .special, special := some .umemReapIntervalProcess },
    { name := "magazine_tune", type := .uint, uintTarget := some .umemMagazineTuning },
    { name := "size_add", type := .special, sizeTarget := some .umemSizeTempval,
      special := some .umemSizeProcess },
    { name := "size_clear", type := .special, sizeTarget := some .umemSizeTempval,
      special := some .umemSizeProcess },
    { name := "size_remove", type := .special, sizeTarget := some .umemSizeTempval,
      special := some .umemSizeProcess }] ++
  (if build.win32 then [] else
    [{ name := "sbrk_minalloc", type := .size, sizeTarget := some .vmemSbrkMinalloc },
      { name := "sbrk_pagesize", type := .size, sizeTarget := some .vmemSbrkPagesize },
      { name := "mmap_guard", type := .size, sizeTarget := some .vmemMmapGuardMin,
        secureUnsafe := true }]) ++
  [{ name := "reclaim", type := .uint, uintTarget := some .umemReclaimEnabled },
    { name := "reclaim_delay", type := .uint, uintTarget := some .umemReclaimDelay },
    { name := "perthread_cache", type := .size, sizeTarget := some .umemPtcSize },
    { name := "tcache", type := .uint, uintTarget := some .umemPtcEnabled },
    { name := "tcache_max", type := .size, sizeTarget := some .umemPtcMaxsize },
    { name := "ownership", type := .uint, uintTarget := some .umemOwnershipDebug },
    { name := "profile", type := .special, special := some .umemProfileProcess,
      secureUnsafe := true }] ++
  (if build.umemIntrospect then
    [{ name := "introspect", type := .uint, uintTarget := some .umemIntrospectEnabled,
        secureUnsafe := true }]
  else []) ++
  [{ name := "abort", type := .flag, flagTarget := some .umemAbort, flagValue := 1 }]

def umemDebugItems : List Item :=
  [{ name := "default", type := .flag, flagTarget := some .umemFlags,
      flagValue := umfAudit ||| umfContents ||| umfDeadbeef ||| umfRedzone },
    { name := "audit", type := .optuint, flagTarget := some .umemFlags, flagValue := umfAudit,
      uintTarget := some .umemStackDepth },
    { name := "contents", type := .optsize, flagTarget := some .umemFlags,
      flagValue := umfContents, sizeTarget := some .umemContentMaxsave },
    { name := "guards", type := .flag, flagTarget := some .umemFlags,
      flagValue := umfDeadbeef ||| umfRedzone },
    { name := "verbose", type := .flag, flagTarget := some .umemOutput, flagValue := 1,
      secureUnsafe := true },
    { name := "nosignal", type := .flag, flagTarget := some .umemFlags,
      flagValue := umfAudit ||| umfChecksignal },
    { name := "firewall", type := .size, flagTarget := some .umemFlags, flagValue := umfFirewall,
      sizeTarget := some .umemMinfirewall },
    { name := "lite", type := .flag, flagTarget := some .umemFlags, flagValue := umfLite },
    { name := "maxverify", type := .size, sizeTarget := some .umemMaxverify },
    { name := "noabort", type := .clearflag, flagTarget := some .umemAbort, flagValue := 1,
      secureUnsafe := true },
    { name := "mtbf", type := .uint, uintTarget := some .umemMtbf, secureUnsafe := true },
    { name := "random", type := .flag, flagTarget := some .umemFlags, flagValue := umfRandomize },
    { name := "allverbose", type := .flag, flagTarget := some .umemOutput, flagValue := 2,
      secureUnsafe := true },
    { name := "checknull", type := .flag, flagTarget := some .umemFlags,
      flagValue := umfChecknull }]

def umemLoggingItems : List Item :=
  [{ name := "transaction", type := .special, sizeTarget := some .umemTransactionLogSize,
      special := some .umemLogProcess },
    { name := "contents", type := .special, flagTarget := some .umemFlags,
      flagValue := umfContents, sizeTarget := some .umemContentLogSize,
      special := some .umemLogProcess },
    { name := "fail", type := .special, sizeTarget := some .umemFailureLogSize,
      special := some .umemLogProcess },
    { name := "slab", type := .special, sizeTarget := some .umemSlabLogSize,
      special := some .umemLogProcess }]

/-- `isspace` in the C locale. -/
def isspace (c : Char) : Bool := c = ' ' || (9 ≤ c.toNat && c.toNat ≤ 13)

def empty (str : CString) : Bool := str.all isspace

/-- `strtoul` in base ten: the result, whether `errno` is `ERANGE`, and the string from `endptr`
on. -/
def strtoul (str : CString) : Word × Bool × CString :=
  let body := str.dropWhile isspace
  let negative := body.head? = some '-'
  let unsigned := if negative ∨ body.head? = some '+' then body.tail else body
  let digits := unsigned.takeWhile Char.isDigit
  let value := digits.foldl (fun n d => 10 * n + (d.toNat - '0'.toNat)) 0
  if digits = [] then (0, false, str)
  else if 2 ^ 64 ≤ value then (BitVec.allOnes 64, true, unsigned.dropWhile Char.isDigit)
  else
    (if negative then -BitVec.ofNat 64 value else BitVec.ofNat 64 value, false,
      unsigned.dropWhile Char.isDigit)

inductive ArgResult
  | argSuccess
  | argBad
  deriving DecidableEq, Repr

/-- The labels that the number processors jump to. -/
inductive NumberError
  | badnumber
  | overflow
  deriving DecidableEq, Repr

/-- The integer that an argument of `item_uint_process` stands for. -/
def uintArg (itemArg : CString) : Except NumberError Uint :=
  if empty itemArg then .error .badnumber
  else
    let (result, erange, endptr) := strtoul itemArg
    if result = BitVec.allOnes 64 ∧ erange then .error .overflow
    else if endptr ≠ [] then .error .badnumber
    else if (result.setWidth 32).setWidth 64 ≠ result then .error .overflow
    else .ok (result.setWidth 32)

/-- The multiplications for a size character, with their tests for an overflow. -/
def scaleArg (resultArg : Word) : Nat → Word → Except NumberError Word
  | 0, result => .ok result
  | n + 1, result =>
    if result * 1024 < resultArg then .error .overflow else scaleArg resultArg n (result * 1024)

/-- How many multiplications a size character stands for. -/
def sizeCharacter (c : Char) : Option Nat :=
  if c = 't' ∨ c = 'T' then some 4
  else if c = 'g' ∨ c = 'G' then some 3
  else if c = 'm' ∨ c = 'M' then some 2
  else if c = 'k' ∨ c = 'K' then some 1
  else none

/-- The size that an argument of `item_size_process` stands for. -/
def sizeArg (itemArg : CString) : Except NumberError Word :=
  if empty itemArg then .error .badnumber
  else
    let (resultArg, erange, endptr) := strtoul itemArg
    if resultArg = BitVec.allOnes 64 ∧ erange then .error .overflow
    else
      match endptr.head?.bind sizeCharacter with
      | none => if endptr ≠ [] then .error .badnumber else .ok resultArg
      | some n => do
        let result ← scaleArg resultArg n resultArg
        if endptr.tail ≠ [] then .error .badnumber else .ok result

variable (current : String) (item : Item)

def logItem (text : String) : Proc Unit := logMessage (current ++ ": " ++ item.name ++ ": " ++ text)

def logNumberError : NumberError → Proc Unit
  | .badnumber => logItem current item "not a number\n"
  | .overflow => logItem current item "overflowed\n"

/-- The part of a number processor in front of its store: the argument is read, so it must not be
null, and an error is logged. -/
def numberArg {α : Type} (parse : CString → Except NumberError α) (itemArg : Option CString) :
    Proc (Option α) :=
  match itemArg with
  | none => fault
  | some arg =>
    match parse arg with
    | .ok value => pure (some value)
    | .error e => do
      logNumberError current item e
      pure none

def storeUint (x : Uint) : Proc Unit :=
  match item.uintTarget with
  | none => fault
  | some target => modifyConfig (·.setUint target x)

def storeSize (x : Word) : Proc Unit :=
  match item.sizeTarget with
  | none => fault
  | some target => modifyConfig (·.setSize target x)

def loadSize : Proc Word :=
  match item.sizeTarget with
  | none => fault
  | some target => do
    let config ← readConfig
    pure (config.sizes target)

def itemUintProcess (itemArg : Option CString) : Proc ArgResult := do
  match ← numberArg current item uintArg itemArg with
  | none => pure .argBad
  | some result => do
    storeUint item result
    pure .argSuccess

def itemSizeProcess (itemArg : Option CString) : Proc ArgResult := do
  match ← numberArg current item sizeArg itemArg with
  | none => pure .argBad
  | some result => do
    storeSize item result
    pure .argSuccess

def umemLogProcess (itemArg : Option CString) : Proc ArgResult := do
  if itemArg.isSome then
    if (← itemSizeProcess current item itemArg) = .argBad then pure .argBad
    else if (← loadSize item) = 0 then pure .argSuccess
    else do
      modifyConfig (·.setUint .umemLogging 1)
      pure .argSuccess
  else do
    storeSize item (64 * 1024)
    modifyConfig (·.setUint .umemLogging 1)
    pure .argSuccess

/-- What `umem_alloc_sizes_add` logs. -/
def sizesAddMessages (sizes : Sizes) (size : Word) : List String :=
  if size = 0 then ["size_add: cannot add zero-sized cache\n"]
  else if umemMaxbuf < size.toNat then
    ["size_add: " ++ toString size.toInt ++ " > " ++ toString umemMaxbuf ++ ", cannot add\n"]
  else if sizes (numAllocSizes - 1) ≠ 0 then
    ["size_add: no space in alloc_table for " ++ toString size.toNat ++ "\n"]
  else
    let rounded := if p2phase size 8 ≠ 0 then p2roundup size 8 else size
    (if p2phase size 8 ≠ 0 then
      ["size_add: rounding " ++ toString size.toNat ++ " up to " ++ toString rounded.toNat ++ "\n"]
    else []) ++
    (if addSlot sizes rounded.toNat numAllocSizes 0 = none then
      ["size_add: " ++ toString rounded.toNat ++ " already in table\n"]
    else [])

/-- What `umem_alloc_sizes_remove` logs. -/
def sizesRemoveMessages (sizes : Sizes) (size : Word) : List String :=
  if size.toNat = umemMaxbuf then ["size_remove: cannot remove " ++ toString size.toNat ++ "\n"]
  else if removeSlot sizes size.toNat numAllocSizes 0 = none then
    ["size_remove: " ++ toString size.toInt ++ " not found in table\n"]
  else []

/-- Apply a change of the size table to the number that the item takes. -/
def sizesAction (messages : Sizes → Word → List String) (action : Sizes → Word → Sizes)
    (itemArg : Option CString) : Proc ArgResult := do
  if itemArg = none then
    logItem current item "requires a value. ignored\n"
    pure .argBad
  else if (← itemSizeProcess current item itemArg) = .argBad then pure .argBad
  else do
    let result ← loadSize item
    let config ← readConfig
    (messages config.umemAllocSizes result).forM logMessage
    modifyConfig fun c => { c with umemAllocSizes := action c.umemAllocSizes result }
    pure .argSuccess

def umemSizeProcess (itemArg : Option CString) : Proc ArgResult :=
  if item.name = "size_clear" then
    if itemArg.isSome then do
      logItem current item "does not take a value. ignored\n"
      pure .argBad
    else do
      modifyConfig fun c => { c with umemAllocSizes := umemAllocSizesClear }
      pure .argSuccess
  else if item.name = "size_add" then
    sizesAction current item sizesAddMessages umemAllocSizesAdd itemArg
  else if item.name = "size_remove" then
    sizesAction current item sizesRemoveMessages umemAllocSizesRemove itemArg
  else do
    logItem current item "internally unrecognized\n"
    pure .argBad

/-- Without a value the argument is a null pointer, which is read all the same. -/
def umemReapIntervalProcess (itemArg : Option CString) : Proc ArgResult := do
  match ← numberArg current item uintArg itemArg with
  | none => pure .argBad
  | some val =>
    if val = 0 then do
      logItem current item
        "0 would make the update thread spin; minimum is 1. ignored\n"
      pure .argBad
    else do
      modifyConfig (·.setUint .umemReapInterval val)
      pure .argSuccess

def umemBackendProcess (itemArg : Option CString) : Proc ArgResult :=
  if itemArg = some "sbrk".toList then do
    modifyConfig fun c => c.setUint .vmemBackend (c.uints .vmemBackend ||| 1)
    pure .argSuccess
  else if itemArg = some "mmap".toList then do
    modifyConfig fun c => c.setUint .vmemBackend (c.uints .vmemBackend ||| 2)
    pure .argSuccess
  else do
    logItem current item ("must be " ++ item.name ++ "=sbrk or " ++ item.name ++ "=mmap\n")
    pure .argBad

/-- The policy that the value of `allocator` names. -/
def allocatorPolicy (itemArg : Option CString) : Option Uint :=
  if itemArg = some "best".toList then some 0x100
  else if itemArg = some "next".toList then some 0x400
  else if itemArg = some "first".toList then some 0x200
  else if itemArg = some "instant".toList then some 0
  else none

def umemAllocatorProcess (itemArg : Option CString) : Proc ArgResult :=
  match allocatorPolicy itemArg with
  | some policy => do
    modifyConfig (·.setUint .vmemAllocator policy)
    pure .argSuccess
  | none => do
    logItem current item ("must be " ++ item.name ++ "=best, " ++ item.name ++ "=next or " ++
      item.name ++ "=first\n")
    pure .argBad

def umemProfileProcess (itemArg : Option CString) : Proc ArgResult :=
  match itemArg with
  | none => do
    logMessage "UMEM_OPTIONS: profile: requires =record:/path or =use:/path\n"
    pure .argBad
  | some arg =>
    if arg.take 7 ≠ "record:".toList ∧ arg.take 4 ≠ "use:".toList then do
      logMessage "UMEM_OPTIONS: profile: must be profile=record:/path or profile=use:/path\n"
      pure .argBad
    else do
      modifyConfig fun c => { c with umemProfileSpec := arg.take 511 }
      pure .argSuccess

def callSpecial (itemArg : Option CString) : Proc ArgResult :=
  match item.special with
  | none => fault
  | some .umemBackendProcess => umemBackendProcess current item itemArg
  | some .umemAllocatorProcess => umemAllocatorProcess current item itemArg
  | some .umemReapIntervalProcess => umemReapIntervalProcess current item itemArg
  | some .umemSizeProcess => umemSizeProcess current item itemArg
  | some .umemProfileProcess => umemProfileProcess itemArg
  | some .umemLogProcess => umemLogProcess current item itemArg

def callProcessor (itemArg : Option CString) : Proc ArgResult :=
  match item.type with
  | .special => callSpecial current item itemArg
  | .uint | .optuint =>
    if itemArg.isSome then itemUintProcess current item itemArg else pure .argSuccess
  | .size | .optsize =>
    if itemArg.isSome then itemSizeProcess current item itemArg else pure .argSuccess
  | .flag | .clearflag | .invalid => pure .argSuccess

/-- The last part of `process_item`. -/
def applyFlag : Proc Unit :=
  match item.flagTarget with
  | none => pure ()
  | some target => modifyConfig fun c =>
    c.setUint target (if item.type = .clearflag then c.uints target &&& ~~~item.flagValue
      else c.uints target ||| item.flagValue)

def processItem (secureMode : Bool) (itemArg : Option CString) : Proc Bool :=
  if item.secureUnsafe ∧ secureMode then fun s =>
    some (false, { s with umemEnvSecureIgnored := s.umemEnvSecureIgnored + 1 })
  else if (item.type = .flag ∨ item.type = .clearflag) ∧ itemArg.isSome then do
    logItem current item "does not take a value. ignored\n"
    pure false
  else if item.type = .invalid then do
    logItem current item "Invalid type.  Ignored\n"
    pure false
  else if (item.type = .uint ∨ item.type = .size) ∧ itemArg = none then do
    logItem current item "Required value missing\n"
    pure false
  else do
    if (← callProcessor current item itemArg) = .argSuccess then
      applyFlag item
      pure true
    else pure false

end Libumem.Env
