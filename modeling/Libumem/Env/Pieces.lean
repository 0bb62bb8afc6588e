import Libumem.Env.Secure

/-!
# The pieces of a value

What the options do outside the secure mode, told piece by piece: a piece is found in the items of
its variable and its value is accepted, or nothing happens. The loops of `umem_process_envvars` are
shown to apply every piece in its order, as long as none of them runs into a null pointer.
-/

namespace Libumem.Env
open Function List Option Arith Lib SizeClass

/-- A change of the configuration, which only a value that is accepted has. -/
abbrev Effect := Option (Config → Config)

/-- The change that an accepted value makes through a processor of its own. -/
def Special.effect (item : Item) (arg : Option CString) : Special → Effect
  | .umemBackendProcess =>
    if arg = some "sbrk".toList then
      some fun c => c.setUint .vmemBackend (c.uints .vmemBackend ||| 1)
    else if arg = some "mmap".toList then
      some fun c => c.setUint .vmemBackend (c.uints .vmemBackend ||| 2)
    else none
  | .umemAllocatorProcess => (allocatorPolicy arg).map fun policy c => c.setUint .vmemAllocator policy
  | .umemReapIntervalProcess => do
    let val ← arg.bind fun a => (uintArg a).toOption
    if val = 0 then none else some (·.setUint .umemReapInterval val)
  | .umemSizeProcess =>
    if item.name = "size_clear" then
      if arg = none then some fun c => { c with umemAllocSizes := umemAllocSizesClear } else none
    else do
      let target ← item.sizeTarget
      let size ← arg.bind fun a => (sizeArg a).toOption
      let action ← if item.name = "size_add" then some umemAllocSizesAdd
        else if item.name = "size_remove" then some umemAllocSizesRemove else none
      some fun c => { c.setSize target size with umemAllocSizes := action c.umemAllocSizes size }
  | .umemProfileProcess => do
    let path ← arg
    if path.take 7 = "record:".toList ∨ path.take 4 = "use:".toList then
      some fun c => { c with umemProfileSpec := path.take 511 }
    else none
  | .umemLogProcess => do
    let target ← item.sizeTarget
    let size ← arg.elim (some (64 * 1024)) fun a => (sizeArg a).toOption
    some fun c =>
      if size = 0 then c.setSize target size else (c.setSize target size).setUint .umemLogging 1

/-- The flag that an accepted item sets or clears. -/
def Item.flagged (item : Item) (c : Config) : Config :=
  item.flagTarget.elim c fun target =>
    c.setUint target (if item.type = .clearflag then c.uints target &&& ~~~item.flagValue
      else c.uints target ||| item.flagValue)

def Item.storedUint (item : Item) (arg : CString) : Effect := do
  let target ← item.uintTarget
  let value ← (uintArg arg).toOption
  some (·.setUint target value)

def Item.storedSize (item : Item) (arg : CString) : Effect := do
  let target ← item.sizeTarget
  let value ← (sizeArg arg).toOption
  some (·.setSize target value)

/-- The change that the value makes, the flag apart. -/
def Item.stored (item : Item) (arg : Option CString) : Effect :=
  match item.type with
  | .invalid => none
  | .flag | .clearflag => if arg = none then some id else none
  | .uint => arg.bind item.storedUint
  | .size => arg.bind item.storedSize
  | .optuint => arg.elim (some id) item.storedUint
  | .optsize => arg.elim (some id) item.storedSize
  | .special => item.special.bind (Special.effect item arg)

/-- The change that an item makes with this value. -/
def Item.effect (item : Item) (arg : Option CString) : Effect :=
  (item.stored arg).map fun f c => item.flagged (f c)

/-- The trimmed pieces of a setting, in their order. -/
def pieces : Option CString → List CString
  | none => []
  | some [] => []
  | some value => (value.splitOn ',').map trim

/-- The change that a trimmed piece makes: it is neither empty nor too long, its name is the one of
an item, and the item accepts what stands behind the equals sign. -/
def pieceEffect (itemList : List Item) (piece : CString) : Effect :=
  if piece = [] ∨ umemEnvItemMax < piece.length + 1 then none
  else (itemList.find? fun item => nameOf piece = item.name.toList).bind (·.effect (argOf piece))

def Effect.apply (effect : Effect) (c : Config) : Config := effect.elim c (· c)

def applyPiece (itemList : List Item) (c : Config) (piece : CString) : Config :=
  (pieceEffect itemList piece).apply c

/-- What a processor returns, and the configuration behind it. -/
def outcome (effect : Effect) (c : Config) : ArgResult × Config :=
  effect.elim (.argBad, c) fun f => (.argSuccess, f c)

section
variable (current : String) {item : Item} (itemArg : Option CString)

theorem modifyConfig_yields (f : Config → Config) :
    Yields State.config (modifyConfig f) fun c => ((), f c) := fun _ => rfl

theorem logItem_yields (text : String) :
    Yields State.config (logItem current item text) fun c => ((), c) := logMessage_silent _

theorem logItem_bad_yields (text : String) :
    Yields State.config (do logItem current item text; pure ArgResult.argBad) (outcome none) :=
  (logItem_yields current text).next (Yields.pure _)

theorem modifyConfig_success_yields (f : Config → Config) :
    Yields State.config (do modifyConfig f; pure ArgResult.argSuccess) (outcome (some f)) :=
  (modifyConfig_yields f).bind fun _ => Yields.pure _

theorem numberArg_yields {α : Type} (parse : CString → Except NumberError α) (arg : CString) :
    Yields State.config (numberArg current item parse (some arg))
      fun c => ((parse arg).toOption, c) := by
  unfold numberArg
  dsimp only
  cases parse arg with
  | ok value => exact Yields.pure _
  | error e =>
    have hlog : Yields State.config (logNumberError current item e) fun c => ((), c) := by
      cases e <;> exact logItem_yields current _
    exact hlog.next (Yields.pure _)

theorem itemUintProcess_yields {target : UintVar} (h : item.uintTarget = some target)
    (arg : CString) : Yields State.config (itemUintProcess current item (some arg))
      (outcome (item.storedUint arg)) := by
  apply (numberArg_yields current uintArg arg).next
  simp only [Item.storedUint, h, bind_eq_bind, bind_some]
  cases (uintArg arg).toOption with
  | none => exact Yields.pure _
  | some value =>
    simp only [storeUint, h]
    exact modifyConfig_success_yields _

theorem itemSizeProcess_yields {target : SizeVar} (h : item.sizeTarget = some target)
    (arg : CString) : Yields State.config (itemSizeProcess current item (some arg))
      (outcome (item.storedSize arg)) := by
  apply (numberArg_yields current sizeArg arg).next
  simp only [Item.storedSize, h, bind_eq_bind, bind_some]
  cases (sizeArg arg).toOption with
  | none => exact Yields.pure _
  | some value =>
    simp only [storeSize, h]
    exact modifyConfig_success_yields _

theorem umemReapIntervalProcess_yields (arg : CString) :
    Yields State.config (umemReapIntervalProcess current item (some arg))
      (outcome (Special.effect item (some arg) .umemReapIntervalProcess)) := by
  apply (numberArg_yields current uintArg arg).next
  simp only [Special.effect, bind_eq_bind, bind_some]
  cases (uintArg arg).toOption with
  | none => exact Yields.pure _
  | some val =>
    rw [bind_some]
    dsimp only
    split
    · exact logItem_bad_yields current _
    · exact modifyConfig_success_yields _

theorem umemBackendProcess_yields : Yields State.config (umemBackendProcess current item itemArg)
    (outcome (Special.effect item itemArg .umemBackendProcess)) := by
  unfold umemBackendProcess Special.effect
  split
  · exact modifyConfig_success_yields _
  split
  · exact modifyConfig_success_yields _
  · exact logItem_bad_yields current _

theorem umemAllocatorProcess_yields :
    Yields State.config (umemAllocatorProcess current item itemArg)
      (outcome (Special.effect item itemArg .umemAllocatorProcess)) := by
  unfold umemAllocatorProcess Special.effect
  cases allocatorPolicy itemArg with
  | none => exact logItem_bad_yields current _
  | some policy => exact modifyConfig_success_yields _

theorem umemProfileProcess_yields : Yields State.config (umemProfileProcess itemArg)
    (outcome (Special.effect item itemArg .umemProfileProcess)) := by
  have hbad (text : String) :
      Yields State.config (do logMessage text; pure ArgResult.argBad) (outcome none) :=
    Yields.next (logMessage_silent text) (Yields.pure _)
  unfold umemProfileProcess Special.effect
  cases itemArg with
  | none => exact hbad _
  | some arg =>
    simp only [bind_eq_bind, bind_some]
    by_cases hpath : arg.take 7 = "record:".toList ∨ arg.take 4 = "use:".toList
    · rw [if_pos hpath, if_neg fun h => hpath.elim h.1 h.2]
      exact modifyConfig_success_yields _
    · rw [if_neg hpath, if_pos (not_or.mp hpath)]
      exact hbad _

section
variable {target : SizeVar} (h : item.sizeTarget = some target)
include h

theorem loadSize_yields : Yields State.config (loadSize item) fun c => (c.sizes target, c) := by
  intro s
  simp only [loadSize, h]
  rfl

theorem umemLogProcess_yields :
    Yields State.config (umemLogProcess current item itemArg)
      (outcome (Special.effect item itemArg .umemLogProcess)) := by
  unfold umemLogProcess
  simp only [Special.effect, h, bind_eq_bind, bind_some]
  cases itemArg with
  | none =>
    simp only [isSome_none, Bool.false_eq_true, if_false, storeSize, h, elim_none, bind_some]
    apply ((modifyConfig_yields _).next (modifyConfig_success_yields _)).congr
    intro c
    rfl
  | some arg =>
    simp only [isSome_some, if_true, elim_some]
    have hsize := itemSizeProcess_yields current h arg
    simp only [Item.storedSize, h, bind_eq_bind, bind_some] at hsize
    cases hread : (sizeArg arg).toOption with
    | none =>
      rw [hread] at hsize
      exact hsize.next (Yields.pure _)
    | some size =>
      rw [hread] at hsize
      have hstore : Yields State.config (itemSizeProcess current item (some arg))
          fun c => (.argSuccess, c.setSize target size) := hsize
      have hload := (loadSize_yields h).bind (k := fun n => if n = 0 then pure ArgResult.argSuccess
        else do modifyConfig (·.setUint .umemLogging 1); pure .argSuccess)
        (g := fun n c => (.argSuccess, if n = 0 then c else c.setUint .umemLogging 1)) fun n => by
          by_cases hn : n = 0
          · simp only [hn, if_true]
            exact Yields.pure _
          · simp only [hn, if_false]
            exact modifyConfig_success_yields _
      apply (hstore.next hload).congr
      intro c
      simp only [outcome, bind_some, elim_some, Config.setSize, update_self]

theorem sizesAction_yields (messages : Sizes → Word → List String) (action : Sizes → Word → Sizes) :
    Yields State.config (sizesAction current item messages action itemArg)
      (outcome ((itemArg.bind fun a => (sizeArg a).toOption).map fun size c =>
        { c.setSize target size with umemAllocSizes := action c.umemAllocSizes size })) := by
  unfold sizesAction
  cases itemArg with
  | none =>
    rw [if_pos rfl]
    exact logItem_bad_yields current _
  | some arg =>
    rw [if_neg (by simp), bind_some]
    have hsize := itemSizeProcess_yields current h arg
    simp only [Item.storedSize, h, bind_eq_bind, bind_some] at hsize
    cases hread : (sizeArg arg).toOption with
    | none =>
      rw [hread] at hsize
      exact hsize.next (Yields.pure _)
    | some size =>
      rw [hread] at hsize
      have hstore : Yields State.config (itemSizeProcess current item (some arg))
          fun c => (.argSuccess, c.setSize target size) := hsize
      -- the messages depend on the sizes and leave them alone
      have hlog (l : List String) : Yields State.config (l.forM logMessage) fun c => ((), c) := by
        apply (Yields.forM (g := fun c _ => c) fun text _ => logMessage_silent text).congr
        intro c
        rw [foldl_fixed]
      have hrest (n : Word) : Yields State.config (do
          let config ← readConfig
          (messages config.umemAllocSizes n).forM logMessage
          modifyConfig fun c => { c with umemAllocSizes := action c.umemAllocSizes n }
          pure ArgResult.argSuccess)
          fun c => (.argSuccess, { c with umemAllocSizes := action c.umemAllocSizes n }) := by
        have hread : Yields State.config readConfig fun c => (c, c) := fun _ => rfl
        apply Yields.bind (g := fun _ => outcome (some fun c =>
          { c with umemAllocSizes := action c.umemAllocSizes n })) hread
        intro config
        exact (hlog _).next (modifyConfig_success_yields _)
      apply (hstore.next ((loadSize_yields h).bind hrest)).congr
      intro c
      simp only [outcome, map_some, elim_some, Config.setSize, update_self]

theorem umemSizeProcess_yields :
    Yields State.config (umemSizeProcess current item itemArg)
      (outcome (Special.effect item itemArg .umemSizeProcess)) := by
  unfold umemSizeProcess Special.effect
  split
  · cases itemArg with
    | none => exact modifyConfig_success_yields _
    | some arg => exact logItem_bad_yields current _
  split
  · apply (sizesAction_yields current itemArg h _ _).congr
    intro c
    simp only [h, bind_eq_bind, bind_some]
    cases itemArg.bind fun a => (sizeArg a).toOption <;> rfl
  split
  · apply (sizesAction_yields current itemArg h _ _).congr
    intro c
    simp only [h, bind_eq_bind, bind_some]
    cases itemArg.bind fun a => (sizeArg a).toOption <;> rfl
  · apply (logItem_bad_yields current _).congr
    intro c
    simp only [h, bind_eq_bind, bind_some]
    cases itemArg.bind fun a => (sizeArg a).toOption <;> rfl

end

/-- The item has the targets that its processor writes through. -/
def Item.targeted (item : Item) : Bool :=
  match item.type with
  | .invalid => false
  | .flag | .clearflag => true
  | .uint | .optuint => item.uintTarget.isSome
  | .size | .optsize => item.sizeTarget.isSome
  | .special =>
    match item.special with
    | none => false
    | some .umemSizeProcess | some .umemLogProcess => item.sizeTarget.isSome
    | some _ => true

/-- The processor of `reap_interval` is called without a value. -/
def Item.nullArgument (item : Item) (arg : Option CString) : Prop :=
  item.type = .special ∧ item.special = some .umemReapIntervalProcess ∧ arg = none

theorem callSpecial_yields {special : Special} (hspecial : item.special = some special)
    (htype : item.type = .special) (htarget : item.targeted = true)
    (harg : ¬item.nullArgument itemArg) :
    Yields State.config (callSpecial current item itemArg)
      (outcome (Special.effect item itemArg special)) := by
  simp only [callSpecial, hspecial]
  simp only [Item.targeted, htype, hspecial] at htarget
  cases special with
  | umemBackendProcess => exact umemBackendProcess_yields current itemArg
  | umemAllocatorProcess => exact umemAllocatorProcess_yields current itemArg
  | umemProfileProcess => exact umemProfileProcess_yields itemArg
  | umemSizeProcess =>
    obtain ⟨target, h⟩ := isSome_iff_exists.mp htarget
    exact umemSizeProcess_yields current itemArg h
  | umemLogProcess =>
    obtain ⟨target, h⟩ := isSome_iff_exists.mp htarget
    exact umemLogProcess_yields current itemArg h
  | umemReapIntervalProcess =>
    cases itemArg with
    | none => exact absurd ⟨htype, hspecial, rfl⟩ harg
    | some arg => exact umemReapIntervalProcess_yields current arg

theorem callProcessor_yields (htarget : item.targeted = true)
    (hvalue : (item.type = .uint ∨ item.type = .size) → itemArg ≠ none)
    (hflag : (item.type = .flag ∨ item.type = .clearflag) → itemArg = none)
    (harg : ¬item.nullArgument itemArg) :
    Yields State.config (callProcessor current item itemArg) (outcome (item.stored itemArg)) := by
  unfold callProcessor Item.stored
  cases htype : item.type with
  | invalid => simp [Item.targeted, htype] at htarget
  | flag =>
    rw [if_pos (hflag (.inl htype))]
    exact Yields.pure _
  | clearflag =>
    rw [if_pos (hflag (.inr htype))]
    exact Yields.pure _
  | uint =>
    simp only [Item.targeted, htype] at htarget
    obtain ⟨target, h⟩ := isSome_iff_exists.mp htarget
    cases itemArg with
    | none => exact absurd rfl (hvalue (.inl htype))
    | some arg => exact itemUintProcess_yields current h arg
  | size =>
    simp only [Item.targeted, htype] at htarget
    obtain ⟨target, h⟩ := isSome_iff_exists.mp htarget
    cases itemArg with
    | none => exact absurd rfl (hvalue (.inr htype))
    | some arg => exact itemSizeProcess_yields current h arg
  | optuint =>
    simp only [Item.targeted, htype] at htarget
    obtain ⟨target, h⟩ := isSome_iff_exists.mp htarget
    cases itemArg with
    | none => exact Yields.pure _
    | some arg => exact itemUintProcess_yields current h arg
  | optsize =>
    simp only [Item.targeted, htype] at htarget
    obtain ⟨target, h⟩ := isSome_iff_exists.mp htarget
    cases itemArg with
    | none => exact Yields.pure _
    | some arg => exact itemSizeProcess_yields current h arg
  | special =>
    obtain ⟨special, hspecial⟩ : ∃ special, item.special = some special := by
      cases hspecial : item.special with
      | none => simp [Item.targeted, htype, hspecial] at htarget
      | some special => exact ⟨special, rfl⟩
    rw [hspecial]
    exact callSpecial_yields current itemArg hspecial htype htarget harg

theorem applyFlag_yields : Yields State.config (applyFlag item) fun c => ((), item.flagged c) := by
  unfold applyFlag Item.flagged
  cases item.flagTarget with
  | none => exact Yields.pure _
  | some target => exact modifyConfig_yields _

theorem processItem_yields (htarget : item.targeted = true) (harg : ¬item.nullArgument itemArg) :
    Yields State.config (processItem current item false itemArg)
      fun c => ((item.effect itemArg).isSome, (item.effect itemArg).apply c) := by
  have hlog (text : String) (h : item.effect itemArg = none) :
      Yields State.config (do logItem current item text; pure false)
        fun c => ((item.effect itemArg).isSome, (item.effect itemArg).apply c) := by
    rw [h]
    exact (logItem_yields current text).next (Yields.pure _)
  unfold processItem
  rw [if_neg (by simp)]
  split
  · rename_i hflag
    apply hlog
    obtain ⟨arg, rfl⟩ := isSome_iff_exists.mp hflag.2
    rcases hflag.1 with htype | htype <;> simp [Item.effect, Item.stored, htype]
  rename_i hflag
  split
  · rename_i htype
    simp [Item.targeted, htype] at htarget
  split
  · rename_i hvalue
    apply hlog
    obtain ⟨htype, rfl⟩ := hvalue
    rcases htype with htype | htype <;> simp [Item.effect, Item.stored, htype]
  rename_i hvalue
  have hcall := callProcessor_yields current itemArg htarget
    (fun htype harg => hvalue ⟨htype, harg⟩)
    (fun htype => by simpa using mt (fun h => ⟨htype, h⟩) hflag) harg
  unfold Item.effect
  cases hstored : item.stored itemArg with
  | none =>
    rw [hstored] at hcall
    exact hcall.next (Yields.pure _)
  | some f =>
    rw [hstored] at hcall
    have hcall : Yields State.config (callProcessor current item itemArg)
        fun c => (.argSuccess, f c) := hcall
    have hflag : Yields State.config (do applyFlag item; pure true)
        fun c => (true, item.flagged c) := applyFlag_yields.next (Yields.pure true)
    apply hcall.next (g := fun c => (true, item.flagged c))
    exact hflag

end

section
variable {current : String} {itemList : List Item}

theorem processNamed_eq (secureMode : Bool) (name : CString) (arg : Option CString) :
    processNamed current secureMode name arg itemList =
      match itemList.find? fun item => name = item.name.toList with
      | none => logMessage (current ++ ": '" ++ String.ofList name ++ "' not recognized\n")
      | some item => processItem current item secureMode arg >>= fun _ => pure () := by
  induction itemList with
  | nil => rfl
  | cons item itemList ih =>
    unfold processNamed
    by_cases hname : name = item.name.toList
    · simp only [if_pos hname, find?_cons, decide_eq_true hname]
    · simp only [if_neg hname, find?_cons, decide_eq_false hname]
      exact ih

/-- A piece that is found is not the call of the processor of `reap_interval` without a value. -/
def Piece.Reads (itemList : List Item) (piece : CString) : Prop :=
  ∀ item ∈ itemList, nameOf piece = item.name.toList → ¬item.nullArgument (argOf piece)

theorem umemProcessValue_yields (htarget : ∀ item ∈ itemList, item.targeted = true)
    {token : CString} (hreads : Piece.Reads itemList (trim token)) :
    Yields State.config (umemProcessValue current false itemList token)
      fun c => ((), applyPiece itemList c (trim token)) := by
  unfold umemProcessValue applyPiece pieceEffect
  dsimp only
  by_cases hnil : trim token = []
  · rw [if_pos hnil, if_pos (.inl hnil)]
    exact logMessage_silent _
  by_cases hlong : umemEnvItemMax < (trim token).length+1
  · rw [if_neg hnil, if_pos hlong, if_pos (.inr hlong)]
    exact logMessage_silent _
  rw [if_neg hnil, if_neg hlong, if_neg (not_or.mpr ⟨hnil, hlong⟩), processNamed_eq]
  cases hfind : itemList.find? fun item => nameOf (trim token) = item.name.toList with
  | none => exact logMessage_silent _
  | some item =>
    have hmem := mem_of_find?_eq_some hfind
    have hname : nameOf (trim token) = item.name.toList := by simpa using find?_some hfind
    exact (processItem_yields current (argOf (trim token)) (htarget item hmem)
      (hreads item hmem hname)).bind (g := fun _ c => ((), c)) fun _ => Yields.pure ()

theorem modifyHead_nil_append (l : List CString) : l.modifyHead ([] ++ ·) = l := by
  cases l <;> rfl

theorem processTokens_eq (secureMode : Bool) (token value : CString) :
    processTokens current secureMode itemList token value =
      ((value.splitOn ',').modifyHead (token ++ ·)).forM
        (umemProcessValue current secureMode itemList) := by
  induction value generalizing token with
  | nil =>
    simp only [processTokens, splitOn_nil, modifyHead_cons, append_nil]
    exact (bind_pure _).symm
  | cons c value ih =>
    have hsplit : (c :: value).splitOn ',' = if c = ',' then [] :: value.splitOn ','
        else (value.splitOn ',').modifyHead (cons c) := by
      rw [splitOn, splitOnP_cons_eq_if_modifyHead]
      simp only [beq_iff_eq]
      rfl
    unfold processTokens
    rw [hsplit]
    split
    · rw [ih [], modifyHead_cons, append_nil, modifyHead_nil_append]
      rfl
    · rw [ih, modifyHead_modifyHead]
      simp only [comp_def, append_assoc, singleton_append]

theorem processEnvvar_yields {build : Build} {getenvResult funcResult : Results} {v : Envvar}
    (htarget : ∀ item ∈ v.envItemList build, item.targeted = true)
    (hreads : ∀ piece ∈ pieces ((getenvResult v).or (funcResult v)),
      Piece.Reads (v.envItemList build) piece) :
    Yields State.config (processEnvvar build false getenvResult funcResult v)
      fun c => ((), (pieces ((getenvResult v).or (funcResult v))).foldl
        (applyPiece (v.envItemList build)) c) := by
  unfold processEnvvar
  generalize (getenvResult v).or (funcResult v) = value at hreads
  cases value with
  | none => exact Yields.pure ()
  | some value =>
    cases value with
    | nil => exact Yields.pure ()
    | cons c value =>
      dsimp only [pieces]
      rw [processTokens_eq, modifyHead_nil_append]
      simp only [foldl_map]
      apply Yields.forM
      intro token htoken
      exact umemProcessValue_yields htarget (hreads _ (mem_map_of_mem htoken))

end

theorem envItemList_targeted (build : Build) : ∀ v ∈ Envvar.all, ∀ item ∈ v.envItemList build,
    item.targeted = true ∧ (item.special = some .umemReapIntervalProcess →
      v = .umemOptions ∧ item.name = "reap_interval") := by
  obtain ⟨win32, introspect⟩ := build
  cases win32 <;> cases introspect <;> decide +kernel

/-- The piece that calls the processor of `reap_interval` without a value. -/
def bareReapInterval : CString := "reap_interval".toList

section
variable (build : Build) {getenvResult funcResult : Results}

theorem nameOf_eq_self {piece : CString} (h : argOf piece = none) : nameOf piece = piece := by
  have hdrop : piece.dropWhile (fun c => c ≠ '=') = [] := by
    unfold argOf at h
    cases hdrop : piece.dropWhile (fun c => c ≠ '=') with
    | nil => rfl
    | cons c rest =>
      rw [hdrop] at h
      cases h
  have hsplit := takeWhile_append_dropWhile (p := fun c => c ≠ '=') (l := piece)
  rwa [hdrop, append_nil] at hsplit

theorem reads_of_ne {v : Envvar} {piece : CString} (h : v = .umemOptions → piece ≠ bareReapInterval) :
    Piece.Reads (v.envItemList build) piece := by
  rintro item hitem hname ⟨-, hspecial, harg⟩
  obtain ⟨rfl, hitemName⟩ := (envItemList_targeted build v v.mem_all item hitem).2 hspecial
  apply h rfl
  rw [nameOf_eq_self harg, hitemName] at hname
  exact hname

theorem umemProcessValue_fault {token : CString} (h : trim token = bareReapInterval) (s : State) :
    umemProcessValue "UMEM_OPTIONS" false (umemOptionsItems build) token s = none := by
  have hfind : (umemOptionsItems build).find? (fun item => bareReapInterval = item.name.toList) =
      some { name := "reap_interval", type := .special,
             special := some .umemReapIntervalProcess } := by
    obtain ⟨win32, introspect⟩ := build
    cases win32 <;> cases introspect <;> decide +kernel
  have hname : nameOf bareReapInterval = bareReapInterval := by decide +kernel
  have harg : argOf bareReapInterval = none := by decide +kernel
  have hlength : ¬umemEnvItemMax < bareReapInterval.length+1 := by decide +kernel
  unfold umemProcessValue
  rw [h]
  simp only [hlength, if_false, hname, harg, processNamed_eq, hfind]
  rw [if_neg (by decide)]
  rfl

theorem processEnvvar_fault
    (h : bareReapInterval ∈ pieces ((getenvResult .umemOptions).or (funcResult .umemOptions)))
    (s : State) : processEnvvar build false getenvResult funcResult .umemOptions s = none := by
  unfold processEnvvar
  generalize (getenvResult .umemOptions).or (funcResult .umemOptions) = value at h
  cases value with
  | none => cases h
  | some value =>
    cases value with
    | nil => cases h
    | cons c value =>
      obtain ⟨token, htoken, htrim⟩ := mem_map.mp h
      dsimp only
      rw [processTokens_eq, modifyHead_nil_append]
      exact forM_eq_none htoken (umemProcessValue_fault build htrim) s

end

/-- The configuration once every piece of every variable is applied, in their order. -/
def applyAll (build : Build) (getenvResult funcResult : Results) (c : Config) : Config :=
  Envvar.all.foldl (fun c v => (pieces ((getenvResult v).or (funcResult v))).foldl
    (applyPiece (v.envItemList build)) c) c

/-- Outside the secure mode `umem_process_envvars` applies every piece in its order and nothing
else, unless `UMEM_OPTIONS` names `reap_interval` without a value. -/
theorem umemProcessEnvvars_pieces_iff (build : Build) (getenvResult funcResult : Results)
    (s : State) :
    (∃ s', umemProcessEnvvars build false getenvResult funcResult s = some ((), s') ∧
      s'.config = applyAll build getenvResult funcResult s.config) ↔
    bareReapInterval ∉ pieces ((getenvResult .umemOptions).or (funcResult .umemOptions)) := by
  constructor
  · rintro ⟨s', hrun, -⟩ hbare
    have hfault : Envvar.all.forM (processEnvvar build false getenvResult funcResult) s = none :=
      forM_eq_none (Envvar.mem_all .umemOptions) (processEnvvar_fault build hbare) s
    have hrun : ((Envvar.all.forM (processEnvvar build false getenvResult funcResult) s).bind
      fun r => reportIgnored r.2) = some ((), s') := hrun
    rw [hfault] at hrun
    cases hrun
  · intro hbare
    have hloop : Yields State.config
        (Envvar.all.forM (processEnvvar build false getenvResult funcResult))
        fun c => ((), applyAll build getenvResult funcResult c) := by
      apply Yields.forM
      intro v hv
      apply processEnvvar_yields (fun item hitem => (envItemList_targeted build v hv item hitem).1)
      intro piece hpiece
      apply reads_of_ne
      rintro rfl rfl
      exact hbare hpiece
    have hrun : Yields State.config (umemProcessEnvvars build false getenvResult funcResult)
        fun c => ((), applyAll build getenvResult funcResult c) :=
      hloop.next (g := fun c => ((), c)) reportIgnored_silent
    exact shown_eq_some (hrun s)

/-- The option stands alone, with a value missing that no check asks for. -/
theorem umemProcessEnvvars_null :
    umemProcessEnvvars ⟨false, true⟩ false (onlyOptions "reap_interval") (fun _ => none) zeroState =
      none := by
  decide +kernel

end Libumem.Env
