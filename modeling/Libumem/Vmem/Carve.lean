import Libumem.Vmem.Tiling

/-!
# Carving an allocation out of a free segment

The arithmetic of `vmem_seg_alloc`: what remains on either side of the allocation tiles the range
of the free segment together with it, also when that range ends at the top of the address space.
-/

namespace Libumem.Vmem
open List BitVec Arith Lib Pow2

/-- `[addr, addr + size)` is a non-empty range of the segment that starts on the quantum. -/
structure Fits (q : Word) (vsp : Seg) (addr size : Word) : Prop where
  lower : vsp.lo ≤ addr.toNat
  aligned : q.toNat ∣ addr.toNat
  size_pos : 0 < size.toNat
  upper : addr.toNat + size.toNat ≤ vsp.hi

/-- The free segment, if any, that covers what is left between `start` and `stop`. -/
def remainderSegs (start stop : Word) (mark : Bool) : List Seg :=
  if start ≠ stop then [⟨start, stop, .free, mark⟩] else []

theorem vsType_of_mem_remainderSegs {start stop : Word} {mark : Bool} {vsp : Seg}
    (h : vsp ∈ remainderSegs start stop mark) : vsp.vsType = .free := by
  unfold remainderSegs at h
  split at h
  · rw [mem_singleton] at h
    rw [h]
  · simp at h

namespace Fits
variable {q addr size : Word} {vsp : Seg} {s t : Scan}

section

variable (h : Fits q vsp addr size) (hq : IsPow2 q) (ht : vsp.vsType = .free)
  (hs : Scan.Step q.toNat s vsp t)

include h hq ht hs

theorem roundUp_bounds :
    addr.toNat+roundUp size.toNat q.toNat ≤ vsp.hi ∧
      (p2roundup size q).toNat = roundUp size.toNat q.toNat := by
  obtain ⟨hold, hlen, -, -⟩ := (Scan.step_free ht).mp hs
  have hhi : q.toNat ∣ vsp.hi := by
    rw [Seg.hi, hold.start]
    exact Nat.dvd_add hold.aligned hlen
  have hle : roundUp size.toNat q.toNat ≤ vsp.hi-addr.toNat :=
    roundUp_le_of_dvd hq.pos (Nat.dvd_sub hhi h.aligned) (by have := h.upper; omega)
  have hpos := h.size_pos
  have hup := h.upper
  have hbound : vsp.hi ≤ 2^64 := by
    have := hold.room
    have := hold.bound
    rw [Seg.hi, hold.start]
    omega
  have hlo : 0 < addr.toNat := by
    have := hold.pos
    have := h.lower
    rw [hold.start] at this
    omega
  refine ⟨by omega, toNat_p2roundup_of_lt hq ?_⟩
  omega

theorem end_ne_zero (hne : addr+p2roundup size q ≠ vsp.vsEnd) : addr+p2roundup size q ≠ 0 := by
  obtain ⟨hle, hround⟩ := h.roundUp_bounds hq ht hs
  obtain ⟨hold, -, -, -⟩ := (Scan.step_free ht).mp hs
  have hroom := hold.room
  have hbound := hold.bound
  have hpos := hold.pos
  have hlow := h.lower
  have hhi : vsp.hi = s.pos+vsp.len := by rw [Seg.hi, hold.start]
  rw [hold.start] at hlow
  intro hz
  have htop : vsp.hi = 2^64 := by bv_omega
  have hend : vsp.vsEnd = 0 := by
    simp only [Seg.hi, Seg.lo, Seg.len, Seg.vsSize] at htop
    bv_omega
  exact hne (hz.trans hend.symm)

end

end Fits

namespace Scan
variable {q addr size : Word} {vsp x : Seg} {s : Scan} {rest : List Seg}

theorem tiled_left {mark : Bool} (fits : Fits q vsp addr size) (ht : vsp.vsType = .free)
    {t : Scan} (hs : Step q.toNat s vsp t)
    (h : Tiled q.toNat ⟨addr.toNat, s.stop, false⟩ (x :: rest)) (hx : x.vsType = .alloc) :
    Tiled q.toNat s (remainderSegs vsp.vsStart addr mark ++ x :: rest) := by
  obtain ⟨hold, hlen, hafter, -⟩ := (step_free ht).mp hs
  have hstart := hold.start
  have hlow := fits.lower
  have hup := fits.upper
  have hsz := fits.size_pos
  have hroom := hold.room
  unfold remainderSegs
  split
  · rename_i hne
    have hlt : vsp.vsStart.toNat < addr.toNat := by
      have : vsp.vsStart.toNat ≠ addr.toNat := fun he => hne (eq_of_toNat_eq he)
      rw [Seg.lo] at hlow
      omega
    have hl : (⟨vsp.vsStart, addr, .free, mark⟩ : Seg).len = addr.toNat-s.pos := by
      rw [← hstart]
      simp only [Seg.len, Seg.vsSize, Seg.lo]
      rw [toNat_sub_of_le (by rw [le_def]; omega)]
    rw [singleton_append, tiled_cons]
    refine ⟨_, (step_free rfl).mpr ⟨⟨hstart, hold.pos, hold.aligned, ?_, ?_, hold.bound⟩, ?_,
      hafter, rfl⟩, ?_⟩
    · rw [hl]
      rw [Seg.lo] at hstart
      omega
    · rw [hl]
      rw [Seg.hi] at hup
      omega
    · rw [hl]
      exact Nat.dvd_sub fits.aligned hold.aligned
    · rw [hl]
      apply tiled_congr_afterFree h
      · change s.pos+(addr.toNat-s.pos) = addr.toNat
        omega
      · rfl
      · simp [hx]
  · rename_i heq
    have heq : vsp.vsStart = addr := by simpa using heq
    rw [nil_append]
    apply tiled_congr_afterFree h
    · rw [← hstart, Seg.lo, heq]
    · rfl
    · simp [hafter]

theorem tiled_right {mark : Bool} (fits : Fits q vsp addr size) (hq : IsPow2 q)
    (ht : vsp.vsType = .free) {t : Scan} (hs : Step q.toNat s vsp t) (h : Tiled q.toNat t rest) :
    Tiled q.toNat ⟨addr.toNat+roundUp size.toNat q.toNat, s.stop, false⟩
      (remainderSegs (addr+p2roundup size q) vsp.vsEnd mark ++ rest) := by
  obtain ⟨hle, hround⟩ := fits.roundUp_bounds hq ht hs
  obtain ⟨hold, hlen, hafter, rfl⟩ := (step_free ht).mp hs
  have hstart := hold.start
  have hlow := fits.lower
  have hroom := hold.room
  have hbound := hold.bound
  have hpos := hold.pos
  have hr := roundUp_pos hq.pos fits.size_pos
  have hend : vsp.vsEnd.toNat = vsp.hi % 2^64 := by
    simp only [Seg.hi, Seg.lo, Seg.len, Seg.vsSize]
    rw [← toNat_add]
    congr 1
    bv_omega
  have hdvd : q.toNat ∣ addr.toNat+roundUp size.toNat q.toNat :=
    Nat.dvd_add fits.aligned (dvd_roundUp _ _)
  have hhi : vsp.hi = s.pos+vsp.len := by rw [Seg.hi, hstart]
  generalize hre : roundUp size.toNat q.toNat = r at *
  have haddrEnd : (addr+p2roundup size q).toNat = (addr.toNat+r) % 2^64 := by
    rw [toNat_add, hround]
  unfold remainderSegs
  split
  · rename_i hne
    have hlt : addr.toNat+r < vsp.hi := by
      by_contra hge
      have : addr.toNat+r = vsp.hi := by omega
      apply hne
      apply eq_of_toNat_eq
      rw [haddrEnd, hend, this]
    have hmod : (addr.toNat+r) % 2^64 = addr.toNat+r := Nat.mod_eq_of_lt (by omega)
    have hl : (⟨addr+p2roundup size q, vsp.vsEnd, .free, mark⟩ : Seg).len =
        vsp.hi-(addr.toNat+r) := by
      simp only [Seg.len, Seg.vsSize]
      rw [toNat_sub, haddrEnd, hend, hmod]
      omega
    rw [singleton_append, tiled_cons]
    refine ⟨_, (step_free rfl).mpr ⟨⟨?_, ?_, hdvd, ?_, ?_, hbound⟩, ?_, rfl, rfl⟩, ?_⟩
    · rw [Seg.lo, haddrEnd, hmod]
    · rw [hstart] at hlow
      change 0 < addr.toNat+r
      omega
    · rw [hl]
      omega
    · rw [hl]
      change addr.toNat+r+(vsp.hi-(addr.toNat+r)) ≤ s.stop
      omega
    · rw [hl, hhi]
      exact Nat.dvd_sub (Nat.dvd_add hold.aligned hlen) hdvd
    · rw [hl]
      apply tiled_congr_afterFree h
      · change addr.toNat+r+(vsp.hi-(addr.toNat+r)) = s.pos+vsp.len
        omega
      · rfl
      · exact fun _ => .inl rfl
  · rename_i heq
    have heq : addr+p2roundup size q = vsp.vsEnd := by simpa using heq
    have : (addr.toNat+r) % 2^64 = vsp.hi % 2^64 := by
      rw [← haddrEnd, ← hend, heq]
    rw [nil_append]
    apply tiled_congr_afterFree h
    · change addr.toNat+r = s.pos+vsp.len
      omega
    · rfl
    · simp

theorem tiled_carve (lmark rmark : Bool) (fits : Fits q vsp addr size) (hq : IsPow2 q)
    (ht : vsp.vsType = .free) (hx : x.vsType = .alloc) (hxs : x.vsStart = addr)
    (hxe : x.vsEnd = addr+size) (h : Tiled q.toNat s (vsp :: rest)) :
    Tiled q.toNat s (remainderSegs vsp.vsStart addr lmark ++
      x :: (remainderSegs (addr+p2roundup size q) vsp.vsEnd rmark ++ rest)) := by
  obtain ⟨t, hs, hrest⟩ := tiled_cons.mp h
  obtain ⟨hle, hround⟩ := fits.roundUp_bounds hq ht hs
  refine tiled_left fits ht hs ?_ hx
  have hlen : x.len = size.toNat := by
    simp only [Seg.len, Seg.vsSize, hxs, hxe]
    congr 1
    bv_omega
  obtain ⟨hold, -, -, rfl⟩ := (step_free ht).mp hs
  have hlow := fits.lower
  have hroom := hold.room
  have hpos := hold.pos
  have hhi : vsp.hi = s.pos+vsp.len := by rw [Seg.hi, hold.start]
  rw [hold.start] at hlow
  rw [tiled_cons]
  refine ⟨⟨addr.toNat+roundUp size.toNat q.toNat, s.stop, false⟩,
    (step_alloc hx).mpr ⟨⟨?_, ?_, fits.aligned, ?_, ?_, hold.bound⟩, ?_⟩, ?_⟩
  · rw [Seg.lo, hxs]
  · change 0 < addr.toNat
    omega
  · rw [hlen]
    exact fits.size_pos
  · rw [hlen]
    change addr.toNat+roundUp size.toNat q.toNat ≤ s.stop
    omega
  · rw [hlen]
  · exact tiled_right fits hq ht hs hrest

end Scan
end Libumem.Vmem
