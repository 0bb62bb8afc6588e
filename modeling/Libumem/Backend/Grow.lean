import Libumem.Arith.P2

/-!
# Growing the process break

`_sbrk_grow_aligned` of `vmem_sbrk.c`: where the range that the sbrk backend asks for begins and
where the break is to move.
-/

namespace Libumem.Backend
open Arith Lib.Pow2

def einval : Int := 22

def enomem : Int := 12

/-- `ALIGNSZ`. -/
def alignsz : Word := 16

/-- `MAX` on `size_t`. -/
def wordMax (a b : Word) : Word := if b < a then a else b

/-- The settings of the sbrk backend. -/
structure SbrkConfig where
  realPagesize : Word
  vmemSbrkPagesize : Word
  vmemSbrkMinalloc : Word

/-- What `_sbrk_grow_aligned` decides from the break `sbrk(0)` that it reads: the error it returns
with, or the start of the range and the address it calls `brk` with. -/
def sbrkGrowPlan (minSize lowAlign highAlign sbrk0 : Word) : Except Int (Word × Word) :=
  if lowAlign &&& (lowAlign - 1) ≠ 0 ∨ highAlign &&& (highAlign - 1) ≠ 0 then .error einval
  else
    let oldBrk := p2roundup sbrk0 alignsz
    let retBrk := p2roundup oldBrk (wordMax lowAlign alignsz)
    let highBrk := retBrk + minSize
    let newBrk := p2roundup highBrk (wordMax highAlign alignsz)
    if retBrk < oldBrk ∨ highBrk < retBrk ∨ newBrk < highBrk then .error enomem
    else .ok (retBrk, newBrk)

end Libumem.Backend
