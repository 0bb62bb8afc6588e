import Libumem.Slab.Advise

/-!
# The geometry that `umem_cache_create` settles

The chunk size follows from the size and the alignment of the buffers and from the debug flags, and the
slab size from the chunk size and the quantum of the arena. All of it is arithmetic on 64-bit words.
-/

namespace Libumem.Slab
open Arith Lib.Pow2

inductive Errno
  | einval
  | enomem
  deriving DecidableEq, Repr

/-- The bits of `UMF_DEBUG`. -/
structure Umf where
  audit : Bool
  deadbeef : Bool
  redzone : Bool
  contents : Bool
  nomagazine : Bool
  firewall : Bool
  lite : Bool
  deriving DecidableEq, Repr

def Umf.none : Umf := ⟨false, false, false, false, false, false, false⟩

/-- One of the bits of `UMF_BUFTAG` is set. -/
def Umf.buftag (f : Umf) : Bool := f.deadbeef || f.redzone

def Umf.union (f f' : Umf) : Umf :=
  ⟨f.audit || f'.audit, f.deadbeef || f'.deadbeef, f.redzone || f'.redzone,
    f.contents || f'.contents, f.nomagazine || f'.nomagazine, f.firewall || f'.firewall,
    f.lite || f'.lite⟩

/-- The `cflags` of a call, with the debug bits among them. -/
structure Umc where
  notouch : Bool
  nodebug : Bool
  nomagazine : Bool
  nohash : Bool
  qcache : Bool
  debug : Umf
  deriving DecidableEq, Repr

/-- The tunables that `umem_cache_create` reads. -/
structure Tunables where
  umemFlags : Umf
  umemLiteMinsize : Word
  umemLiteMaxalign : Word
  umemMinfirewall : Word

/-- An arena. It is `firewalled` when it is the default arena and there is a firewall arena, which is
then used in its place. Both have the same quantum, a page. -/
structure Arena where
  quantum : Word
  qcacheMax : Word
  firewalled : Bool
  quantum_pow2 : IsPow2 quantum
  page_le : firewalled = true → 16 ≤ quantum.toNat

structure CreateArgs where
  bufsize : Word
  align : Word
  cflags : Umc

/-- The test of the arguments. -/
def CreateArgs.reasonable (args : CreateArgs) (vmp : Arena) : Bool :=
  !(args.align &&& (args.align - 1) ≠ 0 || vmp.quantum < args.align ||
    args.cflags.nohash && args.cflags.notouch || args.bufsize = 0)

def cacheAlign (args : CreateArgs) : Word :=
  if args.align = 0 then
    if 16 ≤ p2roundup args.bufsize 8 then 16 else 8
  else if args.align < 8 && !args.cflags.notouch then 8
  else args.align

/-- Lightweight debugging tags the buffers that it applies to, and turns debugging off for the
others. -/
def liteFlags (t : Tunables) (args : CreateArgs) (f : Umf) : Umf :=
  if f.lite then
    if t.umemLiteMinsize ≤ args.bufsize && cacheAlign args ≤ t.umemLiteMaxalign &&
        p2phase args.bufsize t.umemLiteMaxalign ≠ 0 then
      { f with deadbeef := true, redzone := true, audit := false, firewall := false }
    else Umf.none
  else f

/-- What the `cflags` of the call change. -/
def callFlags (cflags : Umc) (f : Umf) : Umf :=
  let f := if cflags.qcache && f.audit then { f with nomagazine := true } else f
  let f := if cflags.nodebug then Umf.none else f
  let f := if cflags.notouch then
    { f with deadbeef := false, redzone := false, lite := false, contents := false } else f
  let f := if cflags.nohash then { f with audit := false, firewall := false } else f
  let f := if cflags.nomagazine then { f with nomagazine := true } else f
  if f.audit && !cflags.notouch then { f with redzone := true } else f

/-- The firewall takes the place of the tags. -/
def firewallFlags (t : Tunables) (vmp : Arena) (args : CreateArgs) (f : Umf) : Umf :=
  let f := if f.buftag && t.umemMinfirewall ≤ args.bufsize && !f.lite && !args.cflags.nohash then
    { f with firewall := true } else f
  let f := if !vmp.firewalled then { f with firewall := false } else f
  if f.firewall then { f with deadbeef := false, redzone := false, nomagazine := true } else f

/-- The flags of a cache. The firewall flag remains set when the firewall arena is used. -/
def cacheFlags (t : Tunables) (vmp : Arena) (args : CreateArgs) : Umf :=
  firewallFlags t vmp args
    (callFlags args.cflags (liteFlags t args (t.umemFlags.union args.cflags.debug)))

/-- `cache_bufctl`, `cache_buftag` and the chunk size before it is rounded to the alignment. -/
def chunkParts (bufsize align : Word) (buftag : Bool) : Word × Word × Word :=
  let chunksize := if 8 ≤ align then p2roundup bufsize 8 else bufsize
  if buftag then (chunksize, chunksize, chunksize + BitVec.ofNat 64 sizeofBuftag)
  else (if 8 ≤ align then chunksize - 8 else 0, 0, chunksize)

/-- The loop that looks for the slab size with the least waste for each buffer, with `n` turns left:
nothing when it does not end, and nothing inside when it ends without a best fit. -/
def bestFitLoop (quantum chunksize : Word) :
    Nat → Word → Word → Option Word → Option (Except Errno (Option Word))
  | n, chunks, minwaste, bestfit =>
    if 8 < chunks then some (.ok bestfit)
    else match n with
      | 0 => none
      | n + 1 =>
        let slabsize := p2roundup (chunksize * chunks) quantum
        if slabsize / chunks < chunksize then some (.error .enomem)
        else
          let chunks := slabsize / chunksize
          let waste := (slabsize % chunksize) / chunks
          if waste < minwaste then
            bestFitLoop quantum chunksize n (chunks + 1) waste (some slabsize)
          else bestFitLoop quantum chunksize n (chunks + 1) minwaste bestfit

/-- `LONG_MAX`. -/
def longMax : Word := 0x7fffffffffffffff

/-- A slab is raised to hold sixteen objects when that takes no more than 64 KiB. -/
def raiseDensity (quantum chunksize bestfit : Word) : Word :=
  if bestfit / chunksize < 16 then
    let want := p2roundup (chunksize * 16) quantum
    if 16 ≤ want / chunksize && want ≤ 0x10000 then want else bestfit
  else bestfit

/-- The slab size of a quantum cache. -/
def qcacheSlab (qcacheMax : Word) : Word :=
  let power := (1 : Word) <<< highbit (3 * qcacheMax)
  let bestfit := if 64 < power then power else 64
  if bestfit < 0x400000 then 0x400000 else bestfit

/-- The fields of `umem_cache_t` that say how its slabs are cut. -/
structure Cache where
  bufsize : Word
  align : Word
  bufctl : Word
  buftag : Word
  chunksize : Word
  slabsize : Word
  mincolor : Word
  maxcolor : Word
  quantum : Word
  hash : Bool
  tagged : Bool
  deriving DecidableEq, Repr

/-- The slab size, the range of colors and the hash flag for a chunk size. -/
def slabParts (vmp : Arena) (args : CreateArgs) (flags : Umf) (chunksize : Word) :
    Option (Except Errno (Word × Word × Word × Bool)) :=
  if flags.firewall then
    let slabsize := p2roundup chunksize vmp.quantum
    some (.ok (slabsize, slabsize - chunksize, slabsize - chunksize, true))
  else if args.cflags.nohash ||
      !args.cflags.notouch && !flags.audit && chunksize < vmp.quantum / 8 then
    if vmp.quantum < chunksize + BitVec.ofNat 64 sizeofSlab then some (.error .einval)
    else some (.ok (vmp.quantum, 0, (vmp.quantum - BitVec.ofNat 64 sizeofSlab) % chunksize, false))
  else
    match bestFitLoop vmp.quantum chunksize 8 1 longMax none with
    | none => none
    | some (.error e) => some (.error e)
    | some (.ok none) => none
    | some (.ok (some bestfit)) =>
      let slabsize := if args.cflags.qcache then qcacheSlab vmp.qcacheMax
        else raiseDensity vmp.quantum chunksize bestfit
      some (.ok (slabsize, 0, slabsize % chunksize, true))

/-- The part of `umem_cache_create` that settles the geometry. There is no result when the loop does
not end or its best fit is read without having been set. -/
def umemCacheCreate (t : Tunables) (vmp : Arena) (args : CreateArgs) : Option (Except Errno Cache) :=
  if !args.reasonable vmp then some (.error .einval)
  else
    let align := cacheAlign args
    let flags := cacheFlags t vmp args
    let (bufctl, buftag, size) := chunkParts args.bufsize align flags.buftag
    let chunksize := p2roundup size align
    if chunksize < args.bufsize then some (.error .enomem)
    else
      match slabParts vmp args flags chunksize with
      | none => none
      | some (.error e) => some (.error e)
      | some (.ok (slabsize, mincolor, maxcolor, hash)) =>
        let maxcolor := if vmp.quantum ≤ maxcolor then vmp.quantum - 1 else maxcolor
        some (.ok ⟨args.bufsize, align, bufctl, buftag, chunksize, slabsize, mincolor, maxcolor,
          vmp.quantum, hash, flags.buftag⟩)

namespace Cache
variable (c : Cache)

/-- The color that `umem_slab_create` picks after `color`. -/
def nextColor (color : Word) : Word :=
  if c.maxcolor < color + c.align then c.mincolor else color + c.align

def chunks (color : Word) : Word :=
  if c.hash then (c.slabsize - color) / c.chunksize
  else (c.slabsize - BitVec.ofNat 64 sizeofSlab - color) / c.chunksize

/-- A color that `umem_slab_create` can use: the cache begins with the least one, and every slab picks
the next one. -/
inductive Color : Word → Prop
  | first : Color (c.nextColor c.mincolor)
  | next {color : Word} : Color color → Color (c.nextColor color)

def chunkAt (slab color : Word) (i : Nat) : Word :=
  slab + color + BitVec.ofNat 64 i * c.chunksize

/-- `UMEM_SLAB`. -/
def slabHeader (buf : Word) : Word := p2end buf c.slabsize - BitVec.ofNat 64 sizeofSlab

structure Cut (slab color : Word) : Prop where
  chunks_pos : 0 < (c.chunks color).toNat
  inside : ∀ i < (c.chunks color).toNat, slab.toNat ≤ (c.chunkAt slab color i).toNat ∧
    (c.chunkAt slab color i).toNat + c.chunksize.toNat + (if c.hash then 0 else sizeofSlab) ≤
      slab.toNat + c.slabsize.toNat
  disjoint : ∀ i j, i < j → j < (c.chunks color).toNat →
    (c.chunkAt slab color i).toNat + c.chunksize.toNat ≤ (c.chunkAt slab color j).toNat
  aligned : ∀ i < (c.chunks color).toNat, c.align.toNat ∣ (c.chunkAt slab color i).toNat
  color_lt : color.toNat < c.quantum.toNat
  span : p2align (slab + color) c.quantum = slab
  header : c.hash = false → ∀ i < (c.chunks color).toNat,
    c.slabHeader (c.chunkAt slab color i) = slab + c.slabsize - BitVec.ofNat 64 sizeofSlab ∧
      c.slabHeader slab = slab + c.slabsize - BitVec.ofNat 64 sizeofSlab

/-- The geometry of a cache: each slab that its arena can deliver is cut right, a link fits into a
chunk, and a tag into what is left behind the buffer. -/
structure Fits : Prop where
  cut : ∀ slab color : Word, c.quantum.toNat ∣ slab.toNat → slab ≠ 0 →
    slab.toNat + c.slabsize.toNat ≤ 2 ^ 64 → c.Color color → c.Cut slab color
  link : c.hash = false → c.bufctl.toNat + 8 ≤ c.chunksize.toNat
  tag : c.tagged = true → c.bufsize.toNat ≤ c.buftag.toNat ∧
    c.buftag.toNat + sizeofBuftag ≤ c.chunksize.toNat

end Cache
end Libumem.Slab
