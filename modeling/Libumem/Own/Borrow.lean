import Libumem.Own.Blocks

/-!
# References to owned blocks

With ownership debugging on, a header counts the references to its block three times: all of them,
the shared ones, and whether there is a mutable one. The references that were returned and not
given back are kept beside the state.
-/

namespace Libumem.Own
open Function List BitVec Arith Lib
variable {κ : Type}
section
variable {s : Sys κ} (thrSelf o : Word)

theorem require_headers (op : String) : (s.require true thrSelf o op).2.headers = s.headers := by
  unfold Sys.require Sys.requireOwned Sys.requireThread
  split_ifs <;> rfl

theorem require_owner {o : Word} (ho : o ≠ 0) (hstate : (s.headers o).state = stateOwned)
    (op : String) : s.require true (s.headers o).ownerThread o op = (true, s) := by
  rw [Sys.require, Sys.requireOwned, if_neg ho, if_pos hstate]
  simp [Sys.requireThread]

theorem umemBorrow_cases :
    (∃ t, s.umemBorrow true thrSelf o = (false, t) ∧ t.headers = s.headers) ∨
    (s.headers o).mutBorrow = 0 ∧ s.umemBorrow true thrSelf o = (true, s.setHeader o
      { s.headers o with
        refcount := (s.headers o).refcount+1
        borrowCount := (s.headers o).borrowCount+1 }) := by
  unfold Sys.umemBorrow
  dsimp only
  split
  · exact .inl ⟨_, rfl, require_headers thrSelf o _⟩
  split
  · exact .inl ⟨_, rfl, rfl⟩
  case isFalse hmut =>
    exact .inr ⟨by simpa using hmut, rfl⟩

theorem umemBorrowMut_cases :
    (∃ t, s.umemBorrowMut true thrSelf o = (false, t) ∧ t.headers = s.headers) ∨
    ((s.headers o).borrowCount = 0 ∧ (s.headers o).mutBorrow = 0) ∧
      s.umemBorrowMut true thrSelf o = (true, s.setHeader o
        { s.headers o with refcount := (s.headers o).refcount+1, mutBorrow := 1 }) := by
  unfold Sys.umemBorrowMut
  dsimp only
  split
  · exact .inl ⟨_, rfl, require_headers thrSelf o _⟩
  split
  · exact .inl ⟨_, rfl, rfl⟩
  split
  · exact .inl ⟨_, rfl, rfl⟩
  case isFalse hshared hmut =>
    exact .inr ⟨⟨by simpa using hshared, by simpa using hmut⟩, rfl⟩

theorem umemMove_cases :
    (∃ t, s.umemMove true thrSelf o = (0, t) ∧ t.headers = s.headers) ∨
    (s.headers o).refcount = 0 ∧ s.umemMove true thrSelf o = (o, s.setHeader o
      { s.headers o with ownerThread := thrSelf, borrowCount := 0, mutBorrow := 0 }) := by
  unfold Sys.umemMove
  dsimp only
  split
  · exact .inl ⟨_, rfl, require_headers thrSelf o _⟩
  split
  · exact .inl ⟨_, rfl, rfl⟩
  case isFalse hrefs =>
    exact .inr ⟨by simpa using hrefs, rfl⟩

theorem umemDrop_cases :
    (∃ t, s.umemDrop true thrSelf o = (none, t) ∧ t.headers = s.headers) ∨
    (s.headers o).refcount = 0 ∧ ∃ size, s.umemDrop true thrSelf o =
      (some (o, size), s.setHeader o { s.headers o with state := stateDropped }) := by
  unfold Sys.umemDrop
  split
  · exact .inl ⟨_, rfl, rfl⟩
  split
  · exact .inl ⟨_, rfl, rfl⟩
  case h_2 hnone =>
    refine .inr ⟨?_, _, rfl⟩
    by_contra hrefs
    unfold Sys.dropError at hnone
    dsimp only at hnone
    split_ifs at hnone

end

variable [DecidableEq κ]

/-- The state with the references that are outstanding, each with whether it is mutable. -/
structure Lending (κ : Type) where
  sys : Sys κ
  loans : List (Handle κ × Bool)

namespace Lending

/-- The references after a call. One with a null owner stands for no reference. -/
def lend (s : Lending κ) : Event κ → List (Handle κ × Bool)
  | .borrow thrSelf (some h) =>
    if (s.sys.umemBorrow true thrSelf h.block.addr).1 then (h, false) :: s.loans else s.loans
  | .borrowMut thrSelf (some h) =>
    if (s.sys.umemBorrowMut true thrSelf h.block.addr).1 then (h, true) :: s.loans else s.loans
  | .unborrow (some h) refMutable => s.loans.erase (h, refMutable)
  | _ => s.loans

def step (cacheBufsize : κ → Word) (s : Lending κ) (e : Event κ) : Option (Lending κ) :=
  some ⟨s.sys.step true cacheBufsize e, s.lend e⟩

/-- The handles are those of `umem_own_alloc` and `umem_clone`, and a reference is given back once. -/
def Keeps (s : Lending κ) : Event κ → Prop
  | .ownCacheAlloc .. => False
  | .unborrow (some h) refMutable => (h, refMutable) ∈ s.loans
  | _ => True

instance (s : Lending κ) (e : Event κ) : Decidable (s.Keeps e) := by
  unfold Keeps
  split <;> infer_instance

/-- The number of references to the block of a handle. -/
def outstanding (s : Lending κ) (h : Handle κ) : Nat := (s.loans.map Prod.fst).count h

/-- A size leaves room for the header, and the counters for one more reference. -/
def Roomy (s : Lending κ) : Event κ → Prop
  | .ownAlloc _ size _ _ => (alignedHeaderSize true).toNat + size.toNat < 2 ^ 64
  | .clone _ _ size _ _ _ => (alignedHeaderSize true).toNat + size.toNat < 2 ^ 64
  | .borrow _ (some h) => s.outstanding h + 1 < 2 ^ 31
  | _ => True

instance (s : Lending κ) (e : Event κ) : Decidable (s.Roomy e) := by
  unfold Roomy
  split <;> infer_instance

/-- What the interface asks of its users. -/
def Ok (cacheBufsize : κ → Word) (s : Lending κ) (e : Event κ) : Prop :=
  s.sys.Ok true cacheBufsize e ∧ s.Keeps e

instance (cacheBufsize : κ → Word) (s : Lending κ) (e : Event κ) :
    Decidable (s.Ok cacheBufsize e) := inferInstanceAs (Decidable (_ ∧ _))

def initial (headers : Word → Header) : Lending κ := ⟨Sys.initial headers, []⟩

structure Disciplined (s : Lending κ) : Prop where
  counted : ∀ h ∈ s.sys.live, (s.sys.headers h.block.addr).refcount.toNat = s.outstanding h ∧
    (s.sys.headers h.block.addr).borrowCount.toInt + (s.sys.headers h.block.addr).mutBorrow.toInt =
      s.outstanding h
  exclusive : ∀ h ∈ s.sys.live, (s.sys.headers h.block.addr).mutBorrow = 0 ∨
    (s.sys.headers h.block.addr).mutBorrow = 1 ∧ (h, false) ∉ s.loans
  drops : ∀ h ∈ s.sys.live, (s.sys.umemDrop true (s.sys.headers h.block.addr).ownerThread
    h.block.addr).1 ≠ none ↔ s.outstanding h = 0
  moves : ∀ h ∈ s.sys.live, (s.sys.umemMove true (s.sys.headers h.block.addr).ownerThread
    h.block.addr).1 ≠ 0 ↔ s.outstanding h = 0
  held : ∀ r ∈ s.loans, r.1 ∈ s.sys.live
  freed : s.sys.live.Nodup ∧
    ∀ h, (s.sys.returned.map Prod.fst).count h + s.sys.live.count h = s.sys.made.count h

end Lending

section
variable {loans loans' : List (Handle κ × Bool)} {h : Handle κ} {l : Header}

theorem count_fst (loans : List (Handle κ × Bool)) (h : Handle κ) :
    (loans.map Prod.fst).count h = loans.count (h, false)+loans.count (h, true) := by
  induction loans with
  | nil => rfl
  | cons r loans ih =>
    obtain ⟨h', m⟩ := r
    rw [map_cons, count_cons, count_cons, count_cons, ih]
    cases m <;> by_cases heq : h' = h <;> simp [heq] <;> omega

theorem count_cons_loan (loans : List (Handle κ × Bool)) (h : Handle κ) (m b : Bool) :
    ((h, m) :: loans).count (h, b) = loans.count (h, b)+if m = b then 1 else 0 := by
  cases m <;> cases b <;> simp

/-- A header says what the references to its block are. -/
structure Lent (loans : List (Handle κ × Bool)) (h : Handle κ) (l : Header) : Prop where
  state : l.state = stateOwned
  refcount : l.refcount.toNat = loans.count (h, false) + loans.count (h, true)
  shared : l.borrowCount.toNat = loans.count (h, false)
  mutable : l.mutBorrow.toNat = loans.count (h, true)
  exclusive : loans.count (h, true) = 0 ∨
    loans.count (h, true) = 1 ∧ loans.count (h, false) = 0
  few : loans.count (h, false) < 2 ^ 31

theorem Lent.congr (hl : Lent loans h l) (heq : ∀ m, loans'.count (h, m) = loans.count (h, m)) :
    Lent loans' h l := by
  obtain ⟨hstate, hrefs, hshared, hmut, hexcl, hfew⟩ := hl
  constructor <;> simp only [heq, hstate] <;> assumption

theorem Lent.blank (hmem : ∀ r ∈ loans, r.1 ≠ h) (hstate : l.state = stateOwned)
    (hrefs : l.refcount = 0) (hshared : l.borrowCount = 0) (hmut : l.mutBorrow = 0) :
    Lent loans h l := by
  have hzero : ∀ m, loans.count (h, m) = 0 := fun m =>
    count_eq_zero.mpr fun hm => hmem _ hm rfl
  constructor <;> simp [hzero, hstate, hrefs, hshared, hmut]

theorem Lent.borrow (hl : Lent loans h l) (hmut : l.mutBorrow = 0)
    (hfew : loans.count (h, false)+1 < 2^31) :
    Lent ((h, false) :: loans) h
      { l with refcount := l.refcount+1, borrowCount := l.borrowCount+1 } := by
  obtain ⟨hstate, hrefs, hshared, hm, hexcl, -⟩ := hl
  constructor <;> simp only [count_cons_loan, reduceCtorEq, if_true, if_false] <;> bv_omega

theorem Lent.borrowMut (hl : Lent loans h l) (hshared : l.borrowCount = 0)
    (hmut : l.mutBorrow = 0) :
    Lent ((h, true) :: loans) h { l with refcount := l.refcount+1, mutBorrow := 1 } := by
  obtain ⟨hstate, hrefs, hs, hm, hexcl, hfew⟩ := hl
  constructor <;> simp only [count_cons_loan, reduceCtorEq, if_true, if_false] <;> bv_omega

theorem Lent.unborrow (hl : Lent loans h l) (m : Bool) (hmem : (h, m) ∈ loans) :
    l.refcount ≠ 0 ∧ Lent (loans.erase (h, m)) h
      { l with
        refcount := l.refcount-1
        mutBorrow := if m then 0 else l.mutBorrow
        borrowCount := if ¬m then l.borrowCount-1 else l.borrowCount } := by
  have hpos := count_pos_iff.mpr hmem
  have hcount (b : Bool) := @count_erase _ _ _ (h, b) (h, m) loans
  obtain ⟨hstate, hrefs, hs, hm, hexcl, hfew⟩ := hl
  refine ⟨?_, ?_⟩
  · cases m <;> bv_omega
  · cases m <;> constructor <;> simp [hcount] <;> bv_omega

theorem Lent.dropError {s : Sys κ} (hl : Lent loans h (s.headers h.block.addr)) :
    s.dropError true (s.headers h.block.addr).ownerThread h.block.addr =
      if (s.headers h.block.addr).refcount = 0 then none
      else some (.borrowConflict, "drop with outstanding borrows") := by
  obtain ⟨hstate, hrefs, hshared, hmut, -, -⟩ := hl
  unfold Sys.dropError
  dsimp only
  rw [hstate, if_neg (by decide), if_neg (by decide), if_neg (by decide), if_neg (by simp)]
  by_cases h0 : (s.headers h.block.addr).refcount = 0
  · rw [if_neg (not_not.mpr h0), if_pos h0, if_neg]
    rintro ⟨-, hne | hne⟩
    · bv_omega
    · bv_omega
  · rw [if_pos h0, if_neg h0]

end

namespace Lending

/-- What every call keeps. -/
structure Inv (s : Lending κ) : Prop where
  kept : s.sys.Kept true
  proper : ∀ h ∈ s.sys.made, h.Proper true
  lent : ∀ h ∈ s.sys.live, Lent s.loans h (s.sys.headers h.block.addr)
  held : ∀ r ∈ s.loans, r.1 ∈ s.sys.live
  freed : ∀ h, (s.sys.returned.map Prod.fst).count h + s.sys.live.count h = s.sys.made.count h

variable {s t : Lending κ} {h h' : Handle κ} {loans : List (Handle κ × Bool)} {l : Header}

section

variable (hs : Inv s)

include hs

theorem Inv.addr_ne (hlive : h ∈ s.sys.live) (hlive' : h' ∈ s.sys.live) (hne : h' ≠ h) :
    h'.block.addr ≠ h.block.addr := by
  intro heq
  have : Std.Symm fun h h' : Handle κ => h.block.Apart h'.block := ⟨fun _ _ => Or.symm⟩
  have hapart : h'.block.Apart h.block := (hs.kept.2 hs.proper).apart.forall hlive' hlive hne
  obtain ⟨hheader, hsize, -⟩ := hs.kept.1.extent hs.proper hlive
  obtain ⟨-, hsize', -⟩ := hs.kept.1.extent hs.proper hlive'
  have hpos := (headerSize_le true).2
  rw [Block.Apart, heq] at hapart
  omega

theorem Inv.nodup : s.sys.live.Nodup := by
  refine (hs.kept.2 hs.proper).apart.imp_of_mem fun {h h'} hlive _ hapart heq => ?_
  obtain ⟨hheader, hsize, -⟩ := hs.kept.1.extent hs.proper hlive
  have hpos := (headerSize_le true).2
  rw [heq, Block.Apart] at hapart
  rw [heq] at hsize
  omega

theorem Inv.same (hkept : t.sys.Kept true) (hlive : t.sys.live = s.sys.live)
    (hmade : t.sys.made = s.sys.made) (hreturned : t.sys.returned = s.sys.returned)
    (hlent : ∀ h ∈ s.sys.live, Lent t.loans h (t.sys.headers h.block.addr))
    (hheld : ∀ r ∈ t.loans, r.1 ∈ s.sys.live) : Inv t := by
  constructor
  · exact hkept
  · rw [hmade]
    exact hs.proper
  · rwa [hlive]
  · rwa [hlive]
  · rw [hlive, hmade, hreturned]
    exact hs.freed

theorem Inv.quiet {sys : Sys κ} (hq : Quiet s.sys sys) (hheaders : sys.headers = s.sys.headers) :
    Inv ⟨sys, s.loans⟩ := by
  refine hs.same (hs.kept.quiet hq) hq.live hq.made hq.returned (fun h hlive => ?_) hs.held
  dsimp only
  rw [hheaders]
  exact hs.lent h hlive

theorem Inv.written (hlive : h ∈ s.sys.live) (hq : Quiet s.sys (s.sys.setHeader h.block.addr l))
    (hl : Lent loans h l)
    (hother : ∀ h', h' ≠ h → ∀ m, loans.count (h', m) = s.loans.count (h', m))
    (hheld : ∀ r ∈ loans, r.1 ∈ s.sys.live) : Inv ⟨s.sys.setHeader h.block.addr l, loans⟩ := by
  refine hs.same (hs.kept.quiet hq) hq.live hq.made hq.returned (fun h' hlive' => ?_) hheld
  change Lent loans h' (update s.sys.headers h.block.addr l h'.block.addr)
  by_cases heq : h' = h
  · subst heq
    rwa [update_self]
  · rw [update_of_ne (hs.addr_ne hlive hlive' heq)]
    exact (hs.lent h' hlive').congr (hother h' heq)

theorem Inv.made (hkept : t.sys.Kept true) (hlive : t.sys.live = h :: s.sys.live)
    (hmade : t.sys.made = h :: s.sys.made) (hreturned : t.sys.returned = s.sys.returned)
    (hloans : t.loans = s.loans) (hproper : h.Proper true)
    (hheaders : ∀ h' ∈ s.sys.live, h'.block.addr ≠ h.block.addr ∧
      t.sys.headers h'.block.addr = s.sys.headers h'.block.addr)
    {thrSelf : Word} (hnew : t.sys.headers h.block.addr = ⟨0, stateOwned, h.size, thrSelf, 0, 0⟩) :
    Inv t := by
  constructor
  · exact hkept
  · rw [hmade]
    exact forall_mem_cons.mpr ⟨hproper, hs.proper⟩
  · rw [hlive, hloans]
    refine forall_mem_cons.mpr ⟨?_, fun h' hlive' => ?_⟩
    · rw [hnew]
      refine Lent.blank (fun r hr heq => ?_) rfl rfl rfl rfl
      exact (hheaders r.1 (hs.held r hr)).1 (congrArg (·.block.addr) heq)
    · rw [(hheaders h' hlive').2]
      exact hs.lent h' hlive'
  · rw [hloans, hlive]
    exact fun r hr => mem_cons_of_mem _ (hs.held r hr)
  · intro h'
    rw [hlive, hmade, hreturned, count_cons, count_cons, ← hs.freed h']
    omega

theorem Inv.dropped (hkept : t.sys.Kept true) (hlive : h ∈ s.sys.live)
    (hrefs : (s.sys.headers h.block.addr).refcount = 0) {b : Block κ}
    (hlive' : t.sys.live = s.sys.live.erase h) (hmade : t.sys.made = s.sys.made)
    (hreturned : t.sys.returned = (h, b) :: s.sys.returned) (hloans : t.loans = s.loans)
    (hheaders : ∀ o, o ≠ h.block.addr → t.sys.headers o = s.sys.headers o) : Inv t := by
  have hzero := (hs.lent h hlive).refcount
  rw [hrefs] at hzero
  have hnone : ∀ m, (h, m) ∉ s.loans := by
    intro m
    rw [← count_eq_zero]
    cases m
    · change 0 = _ at hzero
      omega
    · change 0 = _ at hzero
      omega
  constructor
  · exact hkept
  · rw [hmade]
    exact hs.proper
  · rw [hlive', hloans]
    intro h' hmem
    have hne := (hs.nodup.mem_erase_iff.mp hmem).1
    have hmem := mem_of_mem_erase hmem
    rw [hheaders _ (hs.addr_ne hlive hmem hne)]
    exact hs.lent h' hmem
  · rw [hlive', hloans]
    intro r hr
    refine hs.nodup.mem_erase_iff.mpr ⟨fun heq => hnone r.2 ?_, hs.held r hr⟩
    rwa [← heq]
  · intro h'
    rw [hlive', hmade, hreturned, map_cons, count_cons, ← hs.freed h']
    by_cases heq : h = h'
    · subst heq
      rw [count_erase_self]
      have := count_pos_iff.mpr hlive
      simp
      omega
    · rw [count_erase_of_ne (fun heq' => heq heq'.symm)]
      simp [heq]

end

section
variable {cacheBufsize : κ → Word} {e : Event κ}

omit [DecidableEq κ] in
theorem initHeader_blank {s : Sys κ} {thrSelf raw size : Word} {junk : Word → Header} :
    (s.initHeader true thrSelf raw size junk).headers raw =
      ⟨0, stateOwned, size, thrSelf, 0, 0⟩ := by
  simp [Sys.initHeader, Sys.setHeader]

theorem count_cons_other (loans : List (Handle κ × Bool)) (b m : Bool) (hne : h' ≠ h) :
    ((h, b) :: loans).count (h', m) = loans.count (h', m) :=
  count_cons_of_ne fun heq => hne (congrArg Prod.fst heq).symm

section
variable {size raw : Word} (hs : Inv s) (hanswer : s.sys.Answer (Sys.ownTotal true size) raw)
  (hroom : (alignedHeaderSize true).toNat + size.toNat < 2 ^ 64)
include hs hanswer hroom

theorem Inv.ownAlloc {thrSelf : Word} {junk : Word → Header}
    (hkept : (s.sys.step true cacheBufsize (.ownAlloc thrSelf size raw junk)).Kept true) :
    Inv ⟨s.sys.step true cacheBufsize (.ownAlloc thrSelf size raw junk), s.loans⟩ := by
  by_cases hraw : raw = 0
  · have hstep : s.sys.step true cacheBufsize (.ownAlloc thrSelf size raw junk) = s.sys := by
      simp [Sys.step, Sys.umemOwnAlloc, hraw, Sys.noteMade]
    rw [hstep]
    exact hs
  have hstep : s.sys.step true cacheBufsize (.ownAlloc thrSelf size raw junk) =
      (s.sys.initHeader true thrSelf raw size junk).noteMade raw
        ⟨raw, Sys.ownTotal true size, .general⟩ size := by
    simp only [Sys.step, Sys.umemOwnAlloc, if_neg hraw]
  rw [hstep, Sys.noteMade, if_neg hraw] at hkept ⊢
  have hproper : (generalHandle κ true size raw).Proper true := ⟨rfl, hroom⟩
  refine hs.made (t := ⟨_, s.loans⟩) (h := generalHandle κ true size raw) hkept rfl rfl rfl rfl
    hproper ?_ initHeader_blank
  · intro h' hlive'
    exact ⟨(fresh_not_hits hs.kept.1 hs.proper hproper hanswer hraw hlive' raw 0 le_rfl
      (by omega)).1, initHeader_fresh hs.kept.1 hs.proper hproper hanswer hraw thrSelf junk hlive'⟩

theorem Inv.clone {thrSelf : Word} {src : Option (Handle κ)} {junk junk' : Word → Header}
    (hkept : (s.sys.step true cacheBufsize (.clone thrSelf src size raw junk junk')).Kept true) :
    Inv ⟨s.sys.step true cacheBufsize (.clone thrSelf src size raw junk junk'), s.loans⟩ := by
  have hproper : (generalHandle κ true size raw).Proper true := ⟨rfl, hroom⟩
  rcases @umemClone_spec _ s.sys true size raw thrSelf (pointer src) junk
    junk' with ⟨t, ht, hq, hheaders⟩ | ⟨hraw, hnull, ht⟩
  · have hstep : s.sys.step true cacheBufsize (.clone thrSelf src size raw junk junk') = t := by
      simp only [Sys.step, ht, Sys.noteMade, if_true]
      cases src <;> simp [Sys.noteRead]
    rw [hstep] at hkept ⊢
    refine hs.same hkept hq.live hq.made hq.returned (fun h hlive => ?_) hs.held
    dsimp only
    rw [hheaders]
    exact hs.lent h hlive
  · cases src with
    | none => exact absurd rfl hnull
    | some source =>
      obtain ⟨hown, hothers⟩ := cloneCopy_fresh hs.kept.1 hs.proper hproper hanswer hraw
        (copySize_le (s := s.sys) source.block.addr).1
      simp only [Sys.step, ht, Sys.noteMade, Sys.noteRead, if_neg hraw] at hkept ⊢
      refine hs.made (t := ⟨_, s.loans⟩) (h := generalHandle κ true size raw) hkept rfl rfl rfl rfl
        hproper ?_ ((if_neg hown).trans initHeader_blank)
      · intro h' hlive'
        refine ⟨(fresh_not_hits hs.kept.1 hs.proper hproper hanswer hraw hlive' raw 0 le_rfl
          (by omega)).1, ?_⟩
        exact (if_neg (hothers h' hlive')).trans
          (initHeader_fresh hs.kept.1 hs.proper hproper hanswer hraw thrSelf junk hlive')

end

theorem Inv.noteDeref (hs : Inv s) (handle : Option (Handle κ)) (p : Word)
    (hkept : (s.sys.noteDeref handle p).Kept true) : Inv ⟨s.sys.noteDeref handle p, s.loans⟩ := by
  cases handle with
  | none => exact hs
  | some h =>
    unfold Sys.noteDeref at hkept ⊢
    dsimp only at hkept ⊢
    split at hkept
    case isTrue hp =>
      rw [if_pos hp]
      exact hs
    case isFalse hp =>
      rw [if_neg hp]
      exact hs.same (t := ⟨_, s.loans⟩) hkept rfl rfl rfl hs.lent hs.held

theorem Inv.step (hs : Inv s) (hok : s.Ok cacheBufsize e) (hroom : s.Roomy e) :
    Inv ⟨s.sys.step true cacheBufsize e, s.lend e⟩ := by
  have hkept : (s.sys.step true cacheBufsize e).Kept true := hs.kept.step ⟨hok.1, rfl⟩
  cases e with
  | ownAlloc thrSelf size raw junk => exact hs.ownAlloc hok.1 hroom hkept
  | ownCacheAlloc thrSelf cp raw junk => exact hok.2.elim
  | clone thrSelf src size raw junk junk' => exact hs.clone hok.1.2 hroom hkept
  | deref thrSelf handle =>
    have hheaders : (s.sys.umemDeref true thrSelf (pointer handle)).2.headers = s.sys.headers := by
      unfold Sys.umemDeref
      dsimp only
      split <;> exact require_headers thrSelf _ _
    exact (hs.quiet (umemDeref_spec thrSelf _).1 hheaders).noteDeref handle _ hkept
  | derefConst handle =>
    have hheaders : (s.sys.umemDerefConst true (pointer handle)).2.headers = s.sys.headers := by
      unfold Sys.umemDerefConst
      split_ifs <;> rfl
    exact (hs.quiet (umemDerefConst_spec _).1 hheaders).noteDeref handle _ hkept
  | borrow thrSelf handle =>
    cases handle with
    | none => exact hs.quiet (umemBorrow_quiet thrSelf 0) rfl
    | some h =>
      have hlive := hok.1 h rfl
      have hfew : s.outstanding h+1 < 2^31 := hroom
      rw [outstanding, count_fst] at hfew
      have hq := @umemBorrow_quiet _ s.sys true thrSelf h.block.addr
      change Inv ⟨(s.sys.umemBorrow true thrSelf h.block.addr).2, _⟩
      rcases umemBorrow_cases (s := s.sys) thrSelf h.block.addr with
        ⟨t, ht, hheaders⟩ | ⟨hmut, ht⟩ <;>
        rw [lend, ht] <;> rw [ht] at hq
      · exact hs.quiet hq hheaders
      · exact hs.written hlive hq ((hs.lent h hlive).borrow hmut (by omega))
          (fun _ hne m => count_cons_other s.loans false m hne)
          (forall_mem_cons.mpr ⟨hlive, hs.held⟩)
  | borrowMut thrSelf handle =>
    cases handle with
    | none => exact hs.quiet (umemBorrowMut_quiet thrSelf 0) rfl
    | some h =>
      have hlive := hok.1 h rfl
      have hq := @umemBorrowMut_quiet _ s.sys true thrSelf h.block.addr
      change Inv ⟨(s.sys.umemBorrowMut true thrSelf h.block.addr).2, _⟩
      rcases umemBorrowMut_cases (s := s.sys) thrSelf h.block.addr with
        ⟨t, ht, hheaders⟩ | ⟨⟨hshared, hmut⟩, ht⟩ <;> rw [lend, ht] <;> rw [ht] at hq
      · exact hs.quiet hq hheaders
      · exact hs.written hlive hq ((hs.lent h hlive).borrowMut hshared hmut)
          (fun _ hne m => count_cons_other s.loans true m hne)
          (forall_mem_cons.mpr ⟨hlive, hs.held⟩)
  | unborrow handle refMutable =>
    cases handle with
    | none => exact hs
    | some h =>
      have hlive := hok.1 h rfl
      have haddr := (hs.kept.1.booked h (hs.kept.1.live h hlive)).addr
      obtain ⟨hrefs, hlent⟩ := (hs.lent h hlive).unborrow refMutable hok.2
      have hq := @umemUnborrow_quiet _ s.sys true h.block.addr refMutable
      change Inv ⟨s.sys.umemUnborrow true h.block.addr refMutable, s.loans.erase (h, refMutable)⟩
      rw [Sys.umemUnborrow, if_neg haddr, if_neg hrefs] at hq ⊢
      refine hs.written hlive hq (by simpa using hlent) (fun h' hne m => ?_) fun r hr =>
        hs.held r (mem_of_mem_erase hr)
      exact count_erase_of_ne fun heq => hne (congrArg Prod.fst heq)
  | move thrSelf handle =>
    cases handle with
    | none => exact hs.quiet (umemMove_quiet thrSelf 0) rfl
    | some h =>
      have hlive := hok.1 h rfl
      have hl := hs.lent h hlive
      have hq := @umemMove_quiet _ s.sys true thrSelf h.block.addr
      change Inv ⟨(s.sys.umemMove true thrSelf h.block.addr).2, s.loans⟩
      rcases umemMove_cases (s := s.sys) thrSelf h.block.addr with
        ⟨t, ht, hheaders⟩ | ⟨hrefs, ht⟩ <;>
        rw [ht] at hq ⊢
      · exact hs.quiet hq hheaders
      · have hzero := hl.refcount
        rw [hrefs] at hzero
        change 0 = _ at hzero
        exact hs.written hlive hq ⟨hl.state, hl.refcount, by change 0 = _; omega,
          by change 0 = _; omega, hl.exclusive, hl.few⟩ (fun _ _ _ => rfl) hs.held
  | drop thrSelf handle =>
    cases handle with
    | none => exact hs.quiet (umemDrop_spec thrSelf 0).1 rfl
    | some h =>
      have hlive := hok.1 h rfl
      have hq := (@umemDrop_spec _ s.sys true thrSelf h.block.addr).1
      change ((s.sys.umemDrop true thrSelf h.block.addr).2.noteReturned (some h)
        (s.sys.umemDrop true thrSelf h.block.addr).1).Kept true at hkept
      change Inv ⟨(s.sys.umemDrop true thrSelf h.block.addr).2.noteReturned (some h)
        (s.sys.umemDrop true thrSelf h.block.addr).1, s.loans⟩
      rcases umemDrop_cases (s := s.sys) thrSelf h.block.addr with
        ⟨t, ht, hheaders⟩ | ⟨hrefs, size, ht⟩ <;> rw [ht] at hkept hq ⊢
      · exact hs.quiet hq hheaders
      · exact hs.dropped (t := ⟨_, s.loans⟩) hkept hlive hrefs rfl rfl rfl rfl fun o ho =>
          update_of_ne ho _ _
  | write handle offset len junk =>
    obtain ⟨hlive, hlen⟩ := hok.1
    refine hs.same (t := ⟨_, s.loans⟩) hkept rfl rfl rfl (fun h' hlive' => ?_) hs.held
    have hmiss := write_not_hits hs.kept.1 hs.proper (hs.kept.2 hs.proper) hlive hlive' hlen
    exact (congrArg (Lent s.loans h') (if_neg hmiss)).mpr (hs.lent h' hlive')

theorem inv_initial (headers : Word → Header) : Inv (initial headers : Lending κ) :=
  ⟨initial_kept headers, by simp [initial, Sys.initial], by simp [initial, Sys.initial],
    by simp [initial], by simp [initial, Sys.initial]⟩

end

theorem Inv.disciplined (hs : Inv s) : s.Disciplined := by
  have hcount : ∀ h, s.outstanding h = s.loans.count (h, false)+s.loans.count (h, true) :=
    fun h => count_fst s.loans h
  have haddr : ∀ h ∈ s.sys.live, h.block.addr ≠ 0 := fun h hlive =>
    (hs.kept.1.booked h (hs.kept.1.live h hlive)).addr
  have hzero : ∀ h ∈ s.sys.live, (s.sys.headers h.block.addr).refcount = 0 ↔ s.outstanding h = 0 := by
    intro h hlive
    rw [hcount, ← (hs.lent h hlive).refcount]
    exact ⟨fun h0 => by rw [h0]; rfl, fun h0 => eq_of_toNat_eq h0⟩
  constructor
  · intro h hlive
    have hl := hs.lent h hlive
    have hshared := hl.shared
    have hmut := hl.mutable
    have hexcl := hl.exclusive
    have hfew := hl.few
    rw [hcount]
    refine ⟨hl.refcount, ?_⟩
    rw [toInt_eq_toNat_of_lt (by omega), toInt_eq_toNat_of_lt (by omega), hshared, hmut]
    rfl
  · intro h hlive
    have hl := hs.lent h hlive
    rcases hl.exclusive with hnone | ⟨hone, hshared⟩
    · exact .inl (eq_of_toNat_eq (hl.mutable.trans hnone))
    · exact .inr ⟨eq_of_toNat_eq (hl.mutable.trans hone), count_eq_zero.mp hshared⟩
  · intro h hlive
    have hl := hs.lent h hlive
    rw [← hzero h hlive, Sys.umemDrop, if_neg (haddr h hlive), hl.dropError]
    split
    case h_1 hsome => exact ⟨fun h0 => absurd rfl h0, fun h0 => by simp [h0] at hsome⟩
    case h_2 hnone => exact ⟨fun _ => by simpa using hnone, fun _ => by simp⟩
  · intro h hlive
    have howner := require_owner (haddr h hlive) (hs.lent h hlive).state "move"
    rw [← hzero h hlive, Sys.umemMove, howner]
    dsimp only
    rw [if_neg (by simp)]
    split
    case isTrue hne => exact ⟨fun h0 => absurd rfl h0, fun h0 => absurd h0 hne⟩
    case isFalse heq => exact ⟨fun _ => not_not.mp heq, fun _ => haddr h hlive⟩
  · exact hs.held
  · exact ⟨hs.nodup, hs.freed⟩

theorem borrow_discipline (cacheBufsize : κ → Word) (headers : Word → Header)
    (events : List (Event κ)) (s : Lending κ)
    (hrun : Runs (fun s e t => (s.Ok cacheBufsize e ∧ s.Roomy e) ∧ s.step cacheBufsize e = some t)
      (initial headers) events s) : s.Disciplined := by
  have hinv : Inv s := by
    refine hrun.invariant (fun s e t hs hm => ?_) (inv_initial headers)
    obtain ⟨⟨hok, hroom⟩, hstep⟩ := hm
    cases hstep
    exact hs.step hok hroom
  exact hinv.disciplined

theorem borrow_discipline_lent :
    ∃ s : Lending Unit, s.Disciplined ∧ s.sys.returned.length = 1 ∧ s.sys.errors.length = 1 := by
  let h := generalHandle Unit true 100 0x1000
  let events : List (Event Unit) :=
    [.ownAlloc 1 100 0x1000 (fun _ => blankHeader), .borrow 1 (some h), .borrow 1 (some h),
      .unborrow (some h) false, .drop 1 (some h), .unborrow (some h) false, .drop 1 (some h)]
  obtain ⟨s, hrun, hview⟩ := exists_runs (P := fun s e => s.Ok exampleBufsize e ∧ s.Roomy e)
    (f := step exampleBufsize) (initial fun _ => blankHeader) events
    (fun s => (s.sys.returned.length, s.sys.errors.length)) (1, 1) (by decide +kernel)
  obtain ⟨hreturned, herrors⟩ := Prod.mk.inj hview
  exact ⟨s, borrow_discipline exampleBufsize _ events s hrun, hreturned, herrors⟩

/-- What the header at `0x1010` leaves of the one at `0x1000`: its count and its state stand in the
thread of the first handle, and its size in the two counts of references. -/
def overlaid (o : Word) : Header :=
  if o = 0x1000 then ⟨1, stateOwned, 0 - 100, 0x100000000, 0xffffff9c, 0xffffffff⟩ else blankHeader

/-- Both totals wrap around to 12 bytes, and the blocks are neighbours. -/
theorem borrow_discipline_overwritten :
    ∃ s : Lending Unit, Runs (fun s e t => s.Ok exampleBufsize e ∧ s.step exampleBufsize e = some t)
      (initial fun _ => blankHeader)
      [.ownAlloc 1 (0 - 100) 0x1000 (fun _ => blankHeader),
        .borrow 1 (some (generalHandle Unit true (0 - 100) 0x1000)),
        .ownAlloc 1 (0 - 100) 0x1010 overlaid] s ∧ ¬s.Disciplined := by
  let h := generalHandle Unit true (0-100) 0x1000
  obtain ⟨s, hrun, hview⟩ := exists_runs (P := Ok exampleBufsize) (f := step exampleBufsize)
    (initial fun _ => blankHeader)
    [.ownAlloc 1 (0-100) 0x1000 (fun _ => blankHeader), .borrow 1 (some h),
      .ownAlloc 1 (0-100) 0x1010 overlaid]
    (fun s => decide (h ∈ s.sys.live ∧ s.outstanding h = 1 ∧
      s.sys.headers h.block.addr = overlaid 0x1000)) true (by decide +kernel)
  obtain ⟨hlive, hone, hheader⟩ := of_decide_eq_true hview
  refine ⟨s, hrun, fun hs => ?_⟩
  have hcount := (hs.counted h hlive).2
  rw [hheader, hone] at hcount
  exact absurd hcount (by decide)

end Lending
end Libumem.Own
