import Libumem.Own.Handle

/-!
# Owned blocks go back where they came from

What a handle promises: its data lies in its block behind the header, a copy reads nothing but data,
and a drop gives the block back as it was obtained. A run keeps the promises if and only if every
handle in it came from the general allocator, for a size that leaves room for the header.
-/

namespace Libumem.Own
open List BitVec Arith Lib
variable {κ : Type}

/-- The data of the recorded size lies in the block, behind the header. -/
def Handle.Inside (debug : Bool) (h : Handle κ) : Prop :=
  h.block.addr.toNat + (alignedHeaderSize debug).toNat ≤ (toData debug h.block.addr).toNat ∧
    (toData debug h.block.addr).toNat + h.size.toNat ≤ h.block.addr.toNat + h.block.size.toNat

/-- What the handles of a run promise. -/
structure Sys.Sound (debug : Bool) (s : Sys κ) : Prop where
  inside : ∀ h ∈ s.made, h.Inside debug
  recorded : ∀ h ∈ s.live, (s.headers h.block.addr).allocSize = h.size
  deref : ∀ h p, (h, p) ∈ s.derefs → p = toData debug h.block.addr
  read : ∀ h p n, (h, p, n) ∈ s.reads → p = toData debug h.block.addr ∧ n ≤ h.size
  returned : ∀ h b, (h, b) ∈ s.returned → b = h.block

/-- The handle was made by the general allocator, and its size leaves room for the header. -/
def Handle.Proper (debug : Bool) (h : Handle κ) : Prop :=
  h.block.origin = .general ∧ (alignedHeaderSize debug).toNat + h.size.toNat < 2 ^ 64

instance (debug : Bool) (h : Handle κ) : Decidable (h.Inside debug) :=
  inferInstanceAs (Decidable (_ ∧ _))

instance [DecidableEq κ] (debug : Bool) (h : Handle κ) : Decidable (h.Proper debug) :=
  inferInstanceAs (Decidable (_ ∧ _))

structure Handle.Booked (debug : Bool) (h : Handle κ) : Prop where
  addr : h.block.addr ≠ 0
  room : h.block.addr.toNat + h.block.size.toNat < 2 ^ 64
  size : h.block.origin = .general ∧ h.block.size = Sys.ownTotal debug h.size ∨
    ∃ cp, h.block.origin = .cache cp ∧ h.block.size = h.size

theorem headerSize_le (debug : Bool) :
    (headerSize debug).toNat ≤ (alignedHeaderSize debug).toNat ∧ 0 < (headerSize debug).toNat := by
  cases debug <;> decide

section
variable {debug : Bool} {h : Handle κ}

theorem Handle.Booked.size_eq (hb : h.Booked debug) (hp : h.Proper debug) :
    h.block.size = Sys.ownTotal debug h.size := by
  cases hb.size with
  | inl hgeneral => exact hgeneral.2
  | inr hcache =>
    obtain ⟨cp, horigin, -⟩ := hcache
    rw [hp.1] at horigin
    cases horigin

theorem Handle.Booked.size_of_proper (hb : h.Booked debug) (hp : h.Proper debug) :
    h.block.size.toNat = (alignedHeaderSize debug).toNat+h.size.toNat := by
  rw [hb.size_eq hp, Sys.ownTotal, toNat_add, Nat.mod_eq_of_lt hp.2]

theorem Handle.Booked.inside_iff (hb : h.Booked debug) : h.Inside debug ↔ h.Proper debug := by
  have hroom := hb.room
  have hheader : 0 < (alignedHeaderSize debug).toNat := by
    cases debug <;> decide
  have hdata : (toData debug h.block.addr).toNat =
      (h.block.addr.toNat+(alignedHeaderSize debug).toNat) % 2^64 := by
    rw [toData, toNat_add]
  constructor
  · rintro ⟨hbehind, hend⟩
    cases hb.size with
    | inl hgeneral =>
      refine ⟨hgeneral.1, ?_⟩
      have hsize : h.block.size.toNat =
          ((alignedHeaderSize debug).toNat+h.size.toNat) % 2^64 := by
        rw [hgeneral.2, Sys.ownTotal, toNat_add]
      by_contra hwrap
      have hle := Nat.mod_lt ((alignedHeaderSize debug).toNat+h.size.toNat)
        (by norm_num : 0 < 2^64)
      omega
    | inr hcache =>
      obtain ⟨cp, -, hsize⟩ := hcache
      rw [hsize] at hend
      omega
  · intro hp
    have hsize := hb.size_of_proper hp
    rw [Handle.Inside, hdata, Nat.mod_eq_of_lt (by omega)]
    omega

end

section

/-- Nothing has happened to the handles and to the sizes in the headers. -/
structure Quiet (s t : Sys κ) : Prop where
  live : t.live = s.live
  made : t.made = s.made
  derefs : t.derefs = s.derefs
  reads : t.reads = s.reads
  returned : t.returned = s.returned
  allocSize : ∀ o, (t.headers o).allocSize = (s.headers o).allocSize

variable {s t : Sys κ} {debug : Bool} (thrSelf o : Word)

theorem Quiet.refl (s : Sys κ) : Quiet s s := ⟨rfl, rfl, rfl, rfl, rfl, fun _ => rfl⟩

theorem Quiet.trans {u : Sys κ} (h : Quiet s t) (h' : Quiet t u) : Quiet s u :=
  ⟨h'.live.trans h.live, h'.made.trans h.made, h'.derefs.trans h.derefs, h'.reads.trans h.reads,
    h'.returned.trans h.returned, fun o => (h'.allocSize o).trans (h.allocSize o)⟩

theorem reportError_quiet (err : OwnError) (msg : String) : Quiet s (s.reportError err o msg) :=
  ⟨rfl, rfl, rfl, rfl, rfl, fun _ => rfl⟩

theorem setHeader_quiet {header : Header} (h : header.allocSize = (s.headers o).allocSize) :
    Quiet s (s.setHeader o header) := by
  refine ⟨rfl, rfl, rfl, rfl, rfl, fun o' => ?_⟩
  by_cases ho : o' = o
  · subst ho
    simp [Sys.setHeader, h]
  · simp [Sys.setHeader, ho]

theorem requireOwned_quiet (op : String) : Quiet s (s.requireOwned o op).2 := by
  unfold Sys.requireOwned
  split
  · exact reportError_quiet 0 _ _
  split
  · exact Quiet.refl s
  · exact reportError_quiet o _ _

theorem requireThread_quiet (op : String) : Quiet s (s.requireThread debug thrSelf o op).2 := by
  unfold Sys.requireThread
  split
  · exact reportError_quiet o _ _
  · exact Quiet.refl s

theorem require_quiet (op : String) : Quiet s (s.require debug thrSelf o op).2 := by
  unfold Sys.require
  split
  · exact (requireOwned_quiet o op).trans (requireThread_quiet thrSelf o op)
  · exact requireOwned_quiet o op

theorem umemDeref_spec : Quiet s (s.umemDeref debug thrSelf o).2 ∧
    ((s.umemDeref debug thrSelf o).1 = 0 ∨ (s.umemDeref debug thrSelf o).1 = toData debug o) := by
  unfold Sys.umemDeref
  dsimp only
  split
  · exact ⟨require_quiet thrSelf o _, .inr rfl⟩
  · exact ⟨require_quiet thrSelf o _, .inl rfl⟩

theorem umemDerefConst_spec : Quiet s (s.umemDerefConst debug o).2 ∧
    ((s.umemDerefConst debug o).1 = 0 ∨ (s.umemDerefConst debug o).1 = toData debug o) := by
  unfold Sys.umemDerefConst
  split
  · exact ⟨reportError_quiet 0 _ _, .inl rfl⟩
  split
  · exact ⟨reportError_quiet o _ _, .inl rfl⟩
  · exact ⟨Quiet.refl s, .inr rfl⟩

theorem umemBorrow_quiet : Quiet s (s.umemBorrow debug thrSelf o).2 := by
  unfold Sys.umemBorrow
  dsimp only
  split
  · exact require_quiet thrSelf o _
  split
  · exact reportError_quiet o _ _
  · exact setHeader_quiet o rfl

theorem umemBorrowMut_quiet : Quiet s (s.umemBorrowMut debug thrSelf o).2 := by
  unfold Sys.umemBorrowMut
  dsimp only
  split
  · exact require_quiet thrSelf o _
  split
  · exact reportError_quiet o _ _
  split
  · exact reportError_quiet o _ _
  · exact setHeader_quiet o rfl

theorem umemUnborrow_quiet (refMutable : Bool) : Quiet s (s.umemUnborrow debug o refMutable) := by
  unfold Sys.umemUnborrow
  dsimp only
  split
  · exact Quiet.refl s
  split
  · exact reportError_quiet o _ _
  · exact setHeader_quiet o rfl

theorem umemMove_quiet : Quiet s (s.umemMove debug thrSelf o).2 := by
  unfold Sys.umemMove
  dsimp only
  split
  · exact require_quiet thrSelf o _
  split
  · exact reportError_quiet o _ _
  · exact setHeader_quiet o rfl

theorem umemDrop_spec : Quiet s (s.umemDrop debug thrSelf o).2 ∧
    ((s.umemDrop debug thrSelf o).1 = none ∨ (s.umemDrop debug thrSelf o).1 =
      some (o, alignedHeaderSize debug+(s.headers o).allocSize)) := by
  unfold Sys.umemDrop
  split
  · exact ⟨Quiet.refl s, .inl rfl⟩
  split
  · exact ⟨reportError_quiet o _ _, .inl rfl⟩
  · exact ⟨setHeader_quiet o rfl, .inr rfl⟩

end

section
variable {s t : Sys κ} {debug : Bool} {lo o : Word} {len : Nat} {junk : Word → Header}

theorem not_hits (hlo : lo.toNat+len ≤ 2^64) (ho : o.toNat+(headerSize debug).toNat ≤ 2^64)
    (h : lo.toNat+len ≤ o.toNat ∨ o.toNat+(headerSize debug).toNat ≤ lo.toNat) :
    ¬Hits debug lo len o := by
  rintro ⟨hlen, hhit⟩
  have hpos := (headerSize_le debug).2
  have hdiff := toNat_sub o lo
  have hdiff' := toNat_sub lo o
  have := lo.isLt
  have := o.isLt
  omega

def Block.Apart (b b' : Block κ) : Prop :=
  b.addr.toNat + b.size.toNat ≤ b'.addr.toNat ∨ b'.addr.toNat + b'.size.toNat ≤ b.addr.toNat

/-- How the handles are booked, in every run. -/
structure Sys.Books (debug : Bool) (s : Sys κ) : Prop where
  booked : ∀ h ∈ s.made, h.Booked debug
  live : ∀ h ∈ s.live, h ∈ s.made

/-- What holds as long as all the handles are proper ones. -/
structure Sys.Inv (debug : Bool) (s : Sys κ) : Prop where
  apart : s.live.Pairwise fun h h' => h.block.Apart h'.block
  recorded : ∀ h ∈ s.live, (s.headers h.block.addr).allocSize = h.size
  deref : ∀ h p, (h, p) ∈ s.derefs → p = toData debug h.block.addr
  read : ∀ h p n, (h, p, n) ∈ s.reads → p = toData debug h.block.addr ∧ n ≤ h.size
  returned : ∀ h b, (h, b) ∈ s.returned → b = h.block

theorem Sys.Books.quiet (h : s.Books debug) (hq : Quiet s t) : t.Books debug := by
  constructor
  · rw [hq.made]
    exact h.booked
  · rw [hq.made, hq.live]
    exact h.live

theorem Sys.Inv.quiet (h : s.Inv debug) (hq : Quiet s t) : t.Inv debug := by
  constructor
  · rw [hq.live]
    exact h.apart
  · intro handle hlive
    rw [hq.allocSize]
    exact h.recorded handle (hq.live ▸ hlive)
  · rw [hq.derefs]
    exact h.deref
  · rw [hq.reads]
    exact h.read
  · rw [hq.returned]
    exact h.returned

theorem Sys.Books.extent (hb : s.Books debug) (hp : ∀ h ∈ s.made, h.Proper debug) {h : Handle κ}
    (hlive : h ∈ s.live) :
    (headerSize debug).toNat ≤ (alignedHeaderSize debug).toNat ∧
      h.block.size.toNat = (alignedHeaderSize debug).toNat+h.size.toNat ∧
      h.block.addr.toNat+h.block.size.toNat < 2^64 := by
  have hmade := hb.live h hlive
  have hbooked := hb.booked h hmade
  exact ⟨(headerSize_le debug).1, hbooked.size_of_proper (hp h hmade), hbooked.room⟩

theorem Sys.Books.not_hits_of_data (hb : s.Books debug) (hp : ∀ h ∈ s.made, h.Proper debug)
    (hi : s.Inv debug) {h h' : Handle κ} (hlive : h ∈ s.live) (hlive' : h' ∈ s.live) (lo : Word)
    (len : Nat) (hlo : h.block.addr.toNat+(alignedHeaderSize debug).toNat ≤ lo.toNat)
    (hend : lo.toNat+len ≤ h.block.addr.toNat+h.block.size.toNat) :
    ¬Hits debug lo len h'.block.addr := by
  obtain ⟨hheader, hsize, hroom⟩ := hb.extent hp hlive
  obtain ⟨-, hsize', hroom'⟩ := hb.extent hp hlive'
  apply not_hits
  · omega
  · omega
  · by_cases heq : h = h'
    · subst heq
      right
      omega
    · have : Std.Symm fun h h' : Handle κ => h.block.Apart h'.block := ⟨fun _ _ => Or.symm⟩
      have hapart : h.block.Apart h'.block := hi.apart.forall hlive hlive' heq
      cases hapart with
      | inl hle => left; omega
      | inr hle => right; omega

theorem Sys.Inv.made (h : s.Inv debug) (handle : Handle κ) (hlive : t.live = handle :: s.live)
    (hapart : ∀ h' ∈ s.live, handle.block.Apart h'.block)
    (hheaders : ∀ h' ∈ s.live,
      (t.headers h'.block.addr).allocSize = (s.headers h'.block.addr).allocSize)
    (hnew : (t.headers handle.block.addr).allocSize = handle.size) (hderefs : t.derefs = s.derefs)
    (hreads : ∀ h' p n, (h', p, n) ∈ t.reads → p = toData debug h'.block.addr ∧ n ≤ h'.size)
    (hreturned : t.returned = s.returned) : t.Inv debug := by
  constructor
  · rw [hlive]
    exact pairwise_cons.mpr ⟨hapart, h.apart⟩
  · rw [hlive]
    intro h' hmem
    cases mem_cons.mp hmem with
    | inl heq =>
      rw [heq]
      exact hnew
    | inr hmem =>
      rw [hheaders h' hmem]
      exact h.recorded h' hmem
  · rw [hderefs]
    exact h.deref
  · exact hreads
  · rw [hreturned]
    exact h.returned

/-- What a run keeps, whatever the handles are. -/
def Sys.Kept (debug : Bool) (s : Sys κ) : Prop :=
  s.Books debug ∧ ((∀ h ∈ s.made, h.Proper debug) → s.Inv debug)

theorem Sys.Kept.quiet {t : Sys κ} (h : s.Kept debug) (hq : Quiet s t) : t.Kept debug := by
  refine ⟨h.1.quiet hq, fun hp => ?_⟩
  rw [hq.made] at hp
  exact (h.2 hp).quiet hq

theorem initHeader_headers {thrSelf raw size : Word} {junk : Word → Header} :
    ((s.initHeader debug thrSelf raw size junk).headers raw).allocSize = size ∧
    ∀ o, o ≠ raw → ¬Hits debug raw (headerSize debug).toNat o →
      (s.initHeader debug thrSelf raw size junk).headers o = s.headers o := by
  constructor
  · simp [Sys.initHeader, Sys.setHeader]
  · intro o ho hmiss
    simp [Sys.initHeader, Sys.setHeader, Sys.store, ho, hmiss]

variable {size raw : Word}

/-- The handle that the general allocator's answer becomes. -/
def generalHandle (κ : Type) (debug : Bool) (size raw : Word) : Handle κ :=
  ⟨⟨raw, Sys.ownTotal debug size, .general⟩, size⟩

theorem generalHandle_booked (h : s.Answer (Sys.ownTotal debug size) raw) (hraw : raw ≠ 0) :
    (generalHandle κ debug size raw).Booked debug :=
  ⟨hraw, (h hraw).2.1, .inl ⟨rfl, rfl⟩⟩

section
variable (hb : s.Books debug) (hp : ∀ h ∈ s.made, h.Proper debug)
  (hnew : (generalHandle κ debug size raw).Proper debug)
  (h : s.Answer (Sys.ownTotal debug size) raw) (hraw : raw ≠ 0)
include hb hp hnew h hraw

theorem fresh_not_hits {handle : Handle κ} (hlive : handle ∈ s.live) (lo : Word) (len : Nat)
    (hlo : raw.toNat ≤ lo.toNat) (hend : lo.toNat+len ≤ raw.toNat+(Sys.ownTotal debug size).toNat) :
    handle.block.addr ≠ raw ∧ ¬Hits debug lo len handle.block.addr := by
  obtain ⟨hheader, hsize, hroom⟩ := hb.extent hp hlive
  obtain ⟨-, hnewRoom, hapart⟩ := h hraw
  have hpos := (headerSize_le debug).2
  have htotal := (generalHandle_booked h hraw).size_of_proper hnew
  have hapart := hapart handle hlive
  simp only [generalHandle] at htotal
  constructor
  · rintro rfl
    omega
  · apply not_hits
    · omega
    · omega
    · omega

theorem initHeader_fresh (thrSelf : Word) (junk : Word → Header) {handle : Handle κ}
    (hlive : handle ∈ s.live) :
    (s.initHeader debug thrSelf raw size junk).headers handle.block.addr =
      s.headers handle.block.addr := by
  have htotal := (generalHandle_booked h hraw).size_of_proper hnew
  have hheader := (headerSize_le debug).1
  simp only [generalHandle] at htotal
  obtain ⟨hne, hmiss⟩ := fresh_not_hits hb hp hnew h hraw hlive raw (headerSize debug).toNat le_rfl
    (by omega)
  exact initHeader_headers.2 _ hne hmiss

end

theorem kept_of_made {t : Sys κ} (handle : Handle κ) (h : s.Kept debug)
    (hbooked : handle.Booked debug) (hlive : t.live = handle :: s.live)
    (hmade : t.made = handle :: s.made)
    (hinv : (∀ h' ∈ s.made, h'.Proper debug) → handle.Proper debug → t.Inv debug) :
    t.Kept debug := by
  refine ⟨⟨?_, ?_⟩, ?_⟩
  · rw [hmade]
    exact forall_mem_cons.mpr ⟨hbooked, h.1.booked⟩
  · rw [hlive, hmade]
    intro h' hmem
    cases mem_cons.mp hmem with
    | inl heq => exact heq ▸ mem_cons_self
    | inr hmem => exact mem_cons_of_mem _ (h.1.live h' hmem)
  · rw [hmade]
    intro hp
    exact hinv (forall_mem_cons.mp hp).2 (forall_mem_cons.mp hp).1

theorem kept_ownAlloc (h : s.Kept debug) (hanswer : s.Answer (Sys.ownTotal debug size) raw)
    (thrSelf : Word) (junk : Word → Header) :
    ((s.umemOwnAlloc debug thrSelf size raw junk).2.noteMade
      (s.umemOwnAlloc debug thrSelf size raw junk).1 ⟨raw, Sys.ownTotal debug size, .general⟩
      size).Kept debug := by
  unfold Sys.umemOwnAlloc
  by_cases hraw : raw = 0
  · rw [if_pos hraw]
    exact h
  rw [if_neg hraw, Sys.noteMade, if_neg hraw]
  apply kept_of_made (generalHandle κ debug size raw) h (generalHandle_booked hanswer hraw) rfl rfl
  intro hp hnew
  have hinv := h.2 hp
  apply hinv.made (generalHandle κ debug size raw) rfl
  · exact (hanswer hraw).2.2
  · intro h' hlive
    exact congrArg Header.allocSize
      (initHeader_fresh h.1 hp hnew hanswer hraw thrSelf junk hlive)
  · exact initHeader_headers.1
  · rfl
  · exact hinv.read
  · rfl

theorem kept_ownCacheAlloc {cp : κ} {bufsize : Word} (h : s.Kept debug)
    (hanswer : s.Answer bufsize raw) (thrSelf : Word) (junk : Word → Header) :
    ((s.umemOwnCacheAlloc debug thrSelf bufsize raw junk).2.noteMade
      (s.umemOwnCacheAlloc debug thrSelf bufsize raw junk).1 ⟨raw, bufsize, .cache cp⟩
      bufsize).Kept debug := by
  unfold Sys.umemOwnCacheAlloc
  by_cases hraw : raw = 0
  · rw [if_pos hraw]
    exact h
  rw [if_neg hraw, Sys.noteMade, if_neg hraw]
  apply kept_of_made ⟨⟨raw, bufsize, .cache cp⟩, bufsize⟩ h _ rfl rfl
  · intro _ hnew
    cases hnew.1
  · exact ⟨hraw, (hanswer hraw).2.1, .inr ⟨cp, rfl, rfl⟩⟩

theorem copySize_le (src : Word) :
    s.copySize src size ≤ size ∧ s.copySize src size ≤ (s.headers src).allocSize := by
  unfold Sys.copySize
  split
  · bv_omega
  · bv_omega

theorem cloneCopy_fresh (hb : s.Books debug) (hp : ∀ h ∈ s.made, h.Proper debug)
    (hnew : (generalHandle κ debug size raw).Proper debug)
    (h : s.Answer (Sys.ownTotal debug size) raw) (hraw : raw ≠ 0) {n : Word} (hn : n ≤ size) :
    ¬Hits debug (toData debug raw) n.toNat raw ∧
      ∀ handle ∈ s.live, ¬Hits debug (toData debug raw) n.toNat handle.block.addr := by
  have htotal := (generalHandle_booked h hraw).size_of_proper hnew
  have hroom := (generalHandle_booked h hraw).room
  have hheader := (headerSize_le debug).1
  have hdata : (toData debug raw).toNat = raw.toNat+(alignedHeaderSize debug).toNat := by
    simp only [generalHandle] at htotal hroom
    rw [toData, toNat_add, Nat.mod_eq_of_lt (by omega)]
  have hn : n.toNat ≤ size.toNat := hn
  simp only [generalHandle] at htotal hroom
  constructor
  · apply not_hits
    · omega
    · omega
    · right
      omega
  · intro handle hlive
    exact (fresh_not_hits hb hp hnew h hraw hlive (toData debug raw) n.toNat (by omega)
      (by omega)).2

theorem umemClone_spec (thrSelf src : Word) (junk junk' : Word → Header) :
    (∃ t, s.umemClone debug thrSelf src size raw junk junk' = (0, t) ∧ Quiet s t ∧
      t.headers = s.headers) ∨
    raw ≠ 0 ∧ src ≠ 0 ∧ s.umemClone debug thrSelf src size raw junk junk' =
      (raw, (s.initHeader debug thrSelf raw size junk).store debug (toData debug raw)
        (s.copySize src size).toNat junk') := by
  unfold Sys.umemClone
  cases herror : s.cloneError src with
  | some e => exact .inl ⟨_, rfl, reportError_quiet _ _ _, rfl⟩
  | none =>
    have hsrc : src ≠ 0 := by
      rintro rfl
      cases herror
    by_cases hraw : raw = 0
    · left
      simp only [Sys.umemOwnAlloc, if_pos hraw, if_true]
      exact ⟨s, rfl, Quiet.refl s, rfl⟩
    · right
      refine ⟨hraw, hsrc, ?_⟩
      simp only [Sys.umemOwnAlloc, if_neg hraw]

theorem kept_clone (h : s.Kept debug) {src : Option (Handle κ)} (hsrc : s.InUse src)
    (hanswer : s.Answer (Sys.ownTotal debug size) raw) (thrSelf : Word)
    (junk junk' : Word → Header) :
    (((s.umemClone debug thrSelf (pointer src) size raw junk junk').2.noteRead src
      (s.umemClone debug thrSelf (pointer src) size raw junk junk').1
      (toData debug (pointer src)) (s.copySize (pointer src) size)).noteMade
      (s.umemClone debug thrSelf (pointer src) size raw junk junk').1
      ⟨raw, Sys.ownTotal debug size, .general⟩ size).Kept debug := by
  rcases umemClone_spec thrSelf (pointer src) junk junk' with ⟨t, ht, hq, -⟩ | ⟨hraw, hnull, ht⟩
  · rw [ht]
    have hsame : t.noteRead src 0 (toData debug (pointer src)) (s.copySize (pointer src) size) =
        t := by
      cases src <;> rfl
    rw [hsame]
    exact h.quiet hq
  · rw [ht]
    cases src with
    | none => exact absurd rfl hnull
    | some source =>
      rw [Sys.noteMade, if_neg hraw, Sys.noteRead]
      dsimp only
      rw [if_neg hraw]
      apply kept_of_made (generalHandle κ debug size raw) h (generalHandle_booked hanswer hraw) rfl
        rfl
      intro hp hnew
      have hinv := h.2 hp
      obtain ⟨hown, hothers⟩ := cloneCopy_fresh h.1 hp hnew hanswer hraw
        (copySize_le source.block.addr).1
      apply hinv.made (generalHandle κ debug size raw) rfl
      · exact (hanswer hraw).2.2
      · intro h' hlive
        apply congrArg Header.allocSize
        exact (if_neg (hothers h' hlive)).trans
          (initHeader_fresh h.1 hp hnew hanswer hraw thrSelf junk hlive)
      · exact (congrArg Header.allocSize (if_neg hown)).trans initHeader_headers.1
      · rfl
      · intro h' p n hmem
        cases mem_cons.mp hmem with
        | inl heq =>
          cases heq
          refine ⟨rfl, ?_⟩
          rw [← hinv.recorded source (hsrc source rfl)]
          exact (copySize_le source.block.addr).2
        | inr hmem => exact hinv.read h' p n hmem
      · rfl

theorem kept_deref (h : s.Kept debug) (handle : Option (Handle κ)) {t : Sys κ} {p : Word}
    (hq : Quiet s t) (hp : p = 0 ∨ p = toData debug (pointer handle)) :
    (t.noteDeref handle p).Kept debug := by
  have ht := h.quiet hq
  cases handle with
  | none => exact ht
  | some handle =>
    unfold Sys.noteDeref
    dsimp only
    split
    · exact ht
    · rename_i hne
      refine ⟨⟨ht.1.booked, ht.1.live⟩, fun hproper => ?_⟩
      have hinv := ht.2 hproper
      refine ⟨hinv.apart, hinv.recorded, ?_, hinv.read, hinv.returned⟩
      intro h' p' hmem
      cases mem_cons.mp hmem with
      | inl heq =>
        cases heq
        exact hp.resolve_left hne
      | inr hmem => exact hinv.deref h' p' hmem

theorem returned_eq {handle : Handle κ} {allocSize : Word} (hb : handle.Booked debug)
    (hp : handle.Proper debug) (h : allocSize = handle.size) :
    (⟨handle.block.addr, alignedHeaderSize debug+allocSize, .general⟩ : Block κ) =
      handle.block := by
  have hsize := hb.size_eq hp
  have horigin := hp.1
  obtain ⟨⟨addr, size, origin⟩, userSize⟩ := handle
  simp only at hsize horigin h
  rw [hsize, horigin, h, Sys.ownTotal]

theorem kept_drop [DecidableEq κ] (h : s.Kept debug) {handle : Option (Handle κ)}
    (hlive : s.InUse handle) {t : Sys κ} {freed : Option (Word × Word)} (hq : Quiet s t)
    (hfreed : freed = none ∨ freed = some (pointer handle,
      alignedHeaderSize debug+(s.headers (pointer handle)).allocSize)) :
    (t.noteReturned handle freed).Kept debug := by
  have ht := h.quiet hq
  cases handle with
  | none => exact ht
  | some handle =>
    rcases hfreed with rfl | rfl
    · exact ht
    · refine ⟨⟨ht.1.booked, fun h' hmem => ht.1.live h' (mem_of_mem_erase hmem)⟩, ?_⟩
      intro hproper
      have hinv := ht.2 hproper
      refine ⟨hinv.apart.sublist erase_sublist, ?_, hinv.deref, hinv.read, ?_⟩
      · exact fun h' hmem => hinv.recorded h' (mem_of_mem_erase hmem)
      · intro h' b hmem
        cases mem_cons.mp hmem with
        | inl heq =>
          cases heq
          have hmade : handle ∈ t.made := ht.1.live handle (hq.live ▸ hlive handle rfl)
          have hrecorded := (h.2 (hq.made ▸ hproper)).recorded handle (hlive handle rfl)
          exact returned_eq (ht.1.booked handle hmade) (hproper handle hmade) hrecorded
        | inr hmem => exact hinv.returned h' b hmem

theorem write_not_hits (hb : s.Books debug) (hp : ∀ h ∈ s.made, h.Proper debug) (hinv : s.Inv debug)
    {handle h' : Handle κ} (hlive : handle ∈ s.live) (hlive' : h' ∈ s.live) {offset len : Nat}
    (hlen : offset+len ≤ (s.headers handle.block.addr).allocSize.toNat) :
    ¬Hits debug (toData debug handle.block.addr+BitVec.ofNat 64 offset) len h'.block.addr := by
  rw [hinv.recorded handle hlive] at hlen
  obtain ⟨-, hsize, hroom⟩ := hb.extent hp hlive
  have hlo : (toData debug handle.block.addr+BitVec.ofNat 64 offset).toNat =
      handle.block.addr.toNat+(alignedHeaderSize debug).toNat+offset := by
    rw [toData, toNat_add, toNat_add, toNat_ofNat]
    omega
  exact hb.not_hits_of_data hp hinv hlive hlive' _ len (by omega) (by omega)

theorem kept_write (h : s.Kept debug) {handle : Handle κ} (hlive : handle ∈ s.live) {offset len : Nat}
    (hlen : offset+len ≤ (s.headers handle.block.addr).allocSize.toNat) (junk : Word → Header) :
    (s.store debug (toData debug handle.block.addr+BitVec.ofNat 64 offset) len junk).Kept
      debug := by
  refine ⟨⟨h.1.booked, h.1.live⟩, fun hp => ?_⟩
  have hinv := h.2 hp
  refine ⟨hinv.apart, fun h' hlive' => ?_, hinv.deref, hinv.read, hinv.returned⟩
  have hmiss := write_not_hits h.1 hp hinv hlive hlive' hlen
  exact (congrArg Header.allocSize (if_neg hmiss)).trans (hinv.recorded h' hlive')

end

theorem initial_kept {debug : Bool} (headers : Word → Header) :
    (Sys.initial headers : Sys κ).Kept debug :=
  ⟨⟨by simp [Sys.initial], by simp [Sys.initial]⟩, fun _ =>
    ⟨Pairwise.nil, by simp [Sys.initial], by simp [Sys.initial], by simp [Sys.initial],
      by simp [Sys.initial]⟩⟩

section
variable [DecidableEq κ] {debug : Bool} {cacheBufsize : κ → Word} {s t : Sys κ}

theorem Sys.Kept.step {e : Event κ} (h : s.Kept debug) (hm : s.Moves debug cacheBufsize e t) :
    t.Kept debug := by
  obtain ⟨hok, hstep⟩ := hm
  cases hstep
  cases e with
  | ownAlloc thrSelf size raw junk => exact kept_ownAlloc h hok thrSelf junk
  | ownCacheAlloc thrSelf cp raw junk => exact kept_ownCacheAlloc h hok thrSelf junk
  | clone thrSelf src size raw junk junk' => exact kept_clone h hok.1 hok.2 thrSelf junk junk'
  | deref thrSelf handle =>
    exact kept_deref h handle (umemDeref_spec thrSelf _).1 (umemDeref_spec thrSelf _).2
  | derefConst handle =>
    exact kept_deref h handle (umemDerefConst_spec _).1 (umemDerefConst_spec _).2
  | borrow thrSelf handle => exact h.quiet (umemBorrow_quiet thrSelf _)
  | borrowMut thrSelf handle => exact h.quiet (umemBorrowMut_quiet thrSelf _)
  | unborrow handle refMutable => exact h.quiet (umemUnborrow_quiet _ refMutable)
  | move thrSelf handle => exact h.quiet (umemMove_quiet thrSelf _)
  | drop thrSelf handle =>
    exact kept_drop h hok (umemDrop_spec thrSelf _).1 (umemDrop_spec thrSelf _).2
  | write handle offset len junk => exact kept_write h hok.1 hok.2 junk

end

/-- After any run of the interface every promise is kept, if and only if every handle in it was made
for a block of the general allocator and a size that leaves room for the header. -/
theorem owned_blocks_iff [DecidableEq κ] (debug : Bool) (cacheBufsize : κ → Word)
    (headers : Word → Header) (events : List (Event κ)) (s : Sys κ)
    (hrun : Runs (Sys.Moves debug cacheBufsize) (Sys.initial headers) events s) :
    s.Sound debug ↔ ∀ h ∈ s.made, h.Proper debug := by
  have hkept : s.Kept debug := hrun.invariant (fun _ _ _ h hm => h.step hm) (initial_kept headers)
  constructor
  · intro hsound h hmade
    exact (hkept.1.booked h hmade).inside_iff.mp (hsound.inside h hmade)
  · intro hp
    have hinv := hkept.2 hp
    exact ⟨fun h hmade => (hkept.1.booked h hmade).inside_iff.mpr (hp h hmade), hinv.recorded,
      hinv.deref, hinv.read, hinv.returned⟩

def blankHeader : Header := ⟨0, 0, 0, 0, 0, 0⟩

/-- The caches of the examples: one, with buffers of 64 bytes. -/
def exampleBufsize (_ : Unit) : Word := 64

def exampleStep (debug : Bool) (s : Sys Unit) (e : Event Unit) : Option (Sys Unit) :=
  some (s.step debug exampleBufsize e)

/-- A handle of 100 bytes is made, written, copied and given back. -/
theorem owned_blocks_dropped :
    ∃ s : Sys Unit, s.Sound false ∧ s.made.length = 2 ∧
      s.returned = [(generalHandle Unit false 100 0x1000, ⟨0x1000, 116, .general⟩)] := by
  let h := generalHandle Unit false 100 0x1000
  let events : List (Event Unit) :=
    [.ownAlloc 1 100 0x1000 (fun _ => blankHeader), .deref 1 (some h),
      .write h 60 40 (fun _ => blankHeader),
      .clone 1 (some h) 200 0x2000 (fun _ => blankHeader) (fun _ => blankHeader),
      .borrow 1 (some h), .drop 1 (some h), .unborrow (some h) false, .drop 1 (some h)]
  obtain ⟨s, hrun, hview⟩ := exists_runs (P := Sys.Ok false exampleBufsize) (f := exampleStep false)
    (Sys.initial fun _ => blankHeader) events (fun s => (s.made, s.returned))
    ([generalHandle Unit false 200 0x2000, h], [(h, ⟨0x1000, 116, .general⟩)]) (by decide +kernel)
  obtain ⟨hmade, hreturned⟩ := Prod.mk.inj hview
  refine ⟨s, ?_, by rw [hmade]; rfl, hreturned⟩
  apply (owned_blocks_iff false exampleBufsize _ events s hrun).mpr
  rw [hmade]
  decide

/-- A handle on a buffer of a cache promises data behind the buffer and goes to the general
allocator, with another size; and a size just below `2^64` is given a block of 15 bytes. -/
theorem owned_blocks_misplaced :
    (∃ s : Sys Unit, Runs (Sys.Moves false exampleBufsize) (Sys.initial fun _ => blankHeader)
      [.ownCacheAlloc 1 () 0x1000 (fun _ => blankHeader),
        .drop 1 (some ⟨⟨0x1000, 64, .cache ()⟩, 64⟩)] s ∧
      s.returned = [(⟨⟨0x1000, 64, .cache ()⟩, 64⟩, ⟨0x1000, 80, .general⟩)] ∧
      ¬s.Sound false) ∧
    (∃ s : Sys Unit, Runs (Sys.Moves false exampleBufsize) (Sys.initial fun _ => blankHeader)
      [.ownAlloc 1 0xffffffffffffffff 0x1000 (fun _ => blankHeader)] s ∧
      s.made = [⟨⟨0x1000, 15, .general⟩, 0xffffffffffffffff⟩] ∧ ¬s.Sound false) := by
  constructor
  · obtain ⟨s, hrun, hreturned⟩ := exists_runs (P := Sys.Ok false exampleBufsize)
      (f := exampleStep false) (Sys.initial fun _ => blankHeader)
      [.ownCacheAlloc 1 () 0x1000 (fun _ => blankHeader),
        .drop 1 (some ⟨⟨0x1000, 64, .cache ()⟩, 64⟩)] Sys.returned
      [(⟨⟨0x1000, 64, .cache ()⟩, 64⟩, ⟨0x1000, 80, .general⟩)] (by decide +kernel)
    refine ⟨s, hrun, hreturned, fun hsound => ?_⟩
    have hblock := hsound.returned _ _ (hreturned ▸ mem_cons_self)
    exact absurd hblock (by decide)
  · obtain ⟨s, hrun, hmade⟩ := exists_runs (P := Sys.Ok false exampleBufsize)
      (f := exampleStep false) (Sys.initial fun _ => blankHeader)
      [.ownAlloc 1 0xffffffffffffffff 0x1000 (fun _ => blankHeader)] Sys.made
      [⟨⟨0x1000, 15, .general⟩, 0xffffffffffffffff⟩] (by decide +kernel)
    refine ⟨s, hrun, hmade, fun hsound => ?_⟩
    have hinside := hsound.inside _ (hmade ▸ mem_cons_self)
    exact absurd hinside (by decide)

end Libumem.Own
