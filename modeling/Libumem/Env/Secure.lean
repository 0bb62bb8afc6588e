import Libumem.Env.Process

/-!
# The secure mode

In secure mode the options with side effects are dropped. They must not have any influence on what
the other options do either, wherever they stand and whatever their arguments are. Two runs are
compared on their configuration; the count of dropped options and the log may differ.
-/

namespace Libumem.Env
open List Lib SizeClass

/-- A part of a value between its commas. -/
abbrev Token := { token : CString // ',' ∉ token }

def joinTokens (tokens : List Token) : CString := [','].intercalate (tokens.map Subtype.val)

/-- Some item of this name is marked `item_secure_unsafe`. -/
def unsafeName (build : Build) (name : CString) : Bool :=
  Envvar.all.any fun v => (v.envItemList build).any fun item =>
    item.secureUnsafe && item.name.toList == name

/-- The trimmed name of the token is the one of an unsafe item. -/
def unsafeToken (build : Build) (token : Token) : Bool :=
  unsafeName build (trim (nameOf (trim token.val)))

/-- One unsafe token is inserted, deleted or altered. -/
inductive Edit (build : Build) : List Token → List Token → Prop
  | insert (before after : List Token) {token : Token} (h : unsafeToken build token) :
      Edit build (before ++ after) (before ++ token :: after)
  | delete (before after : List Token) {token : Token} (h : unsafeToken build token) :
      Edit build (before ++ token :: after) (before ++ after)
  | alter (before after : List Token) {token token' : Token} (h : unsafeToken build token)
      (h' : unsafeToken build token') :
      Edit build (before ++ token :: after) (before ++ token' :: after)

/-- The two settings of a variable differ in unsafe tokens only. A variable that is not set stays
so: it is not the same as an empty one, which hides the value of the program's own function. -/
inductive Altered (build : Build) : Option CString → Option CString → Prop
  | unset : Altered build none none
  | set {tokens tokens' : List Token} (h : Relation.ReflTransGen (Edit build) tokens tokens') :
      Altered build (some (joinTokens tokens)) (some (joinTokens tokens'))

section
variable (current : String) (item : Item) (itemArg : Option CString)

theorem modifyConfig_blind (f : Config → Config) : Blind State.config (modifyConfig f) :=
  Blind.of_view (fun c => ((), f c)) fun _ => rfl

theorem readConfig_blind : Blind State.config readConfig :=
  Blind.of_view (fun c => (c, c)) fun _ => rfl

theorem logMessage_silent (text : String) : Silent State.config (logMessage text) := fun _ => rfl

theorem logItem_blind (text : String) : Blind State.config (logItem current item text) :=
  (logMessage_silent _).blind

theorem numberArg_blind {α : Type} (parse : CString → Except NumberError α) :
    Blind State.config (numberArg current item parse itemArg) := by
  unfold numberArg
  cases itemArg with
  | none => exact Blind.fault
  | some arg =>
    dsimp only
    cases parse arg with
    | ok value => exact Blind.pure _
    | error e =>
      apply Blind.bind _ fun _ => Blind.pure _
      cases e <;> exact logItem_blind current item _

theorem storeUint_blind (x : Uint) : Blind State.config (storeUint item x) := by
  unfold storeUint
  cases item.uintTarget with
  | none => exact Blind.fault
  | some target => exact modifyConfig_blind _

theorem storeSize_blind (x : Arith.Word) : Blind State.config (storeSize item x) := by
  unfold storeSize
  cases item.sizeTarget with
  | none => exact Blind.fault
  | some target => exact modifyConfig_blind _

theorem loadSize_blind : Blind State.config (loadSize item) := by
  unfold loadSize
  cases item.sizeTarget with
  | none => exact Blind.fault
  | some target => exact Blind.bind readConfig_blind fun _ => Blind.pure _

theorem itemUintProcess_blind : Blind State.config (itemUintProcess current item itemArg) := by
  apply Blind.bind (numberArg_blind current item itemArg uintArg)
  intro result
  cases result with
  | none => exact Blind.pure _
  | some result => exact Blind.bind (storeUint_blind item result) fun _ => Blind.pure _

theorem itemSizeProcess_blind : Blind State.config (itemSizeProcess current item itemArg) := by
  apply Blind.bind (numberArg_blind current item itemArg sizeArg)
  intro result
  cases result with
  | none => exact Blind.pure _
  | some result => exact Blind.bind (storeSize_blind item result) fun _ => Blind.pure _

theorem modifyConfig_success_blind (f : Config → Config) :
    Blind State.config (do modifyConfig f; pure ArgResult.argSuccess) :=
  Blind.bind (modifyConfig_blind f) fun _ => Blind.pure _

theorem logItem_bad_blind (text : String) :
    Blind State.config (do logItem current item text; pure ArgResult.argBad) :=
  Blind.bind (logItem_blind current item text) fun _ => Blind.pure _

theorem umemLogProcess_blind : Blind State.config (umemLogProcess current item itemArg) := by
  unfold umemLogProcess
  apply Blind.ite
  · apply Blind.bind (itemSizeProcess_blind current item itemArg)
    intro ret
    apply Blind.ite (Blind.pure _)
    apply Blind.bind (loadSize_blind item)
    intro size
    exact Blind.ite (Blind.pure _) (modifyConfig_success_blind _)
  · exact Blind.bind (storeSize_blind item _) fun _ => modifyConfig_success_blind _

theorem sizesAction_blind (messages : Sizes → Arith.Word → List String)
    (action : Sizes → Arith.Word → Sizes) :
    Blind State.config (sizesAction current item messages action itemArg) := by
  unfold sizesAction
  apply Blind.ite (logItem_bad_blind current item _)
  apply Blind.bind (itemSizeProcess_blind current item itemArg)
  intro ret
  apply Blind.ite (Blind.pure _)
  apply Blind.bind (loadSize_blind item)
  intro result
  apply Blind.bind readConfig_blind
  intro config
  apply Blind.bind (Blind.forM fun text => (logMessage_silent text).blind)
  intro _
  exact modifyConfig_success_blind _

theorem umemSizeProcess_blind : Blind State.config (umemSizeProcess current item itemArg) := by
  unfold umemSizeProcess
  apply Blind.ite
  · exact Blind.ite (logItem_bad_blind current item _) (modifyConfig_success_blind _)
  apply Blind.ite (sizesAction_blind current item itemArg _ _)
  exact Blind.ite (sizesAction_blind current item itemArg _ _) (logItem_bad_blind current item _)

theorem umemReapIntervalProcess_blind :
    Blind State.config (umemReapIntervalProcess current item itemArg) := by
  apply Blind.bind (numberArg_blind current item itemArg uintArg)
  intro result
  cases result with
  | none => exact Blind.pure _
  | some val => exact Blind.ite (logItem_bad_blind current item _) (modifyConfig_success_blind _)

theorem umemAllocatorProcess_blind :
    Blind State.config (umemAllocatorProcess current item itemArg) := by
  unfold umemAllocatorProcess
  cases allocatorPolicy itemArg with
  | none => exact logItem_bad_blind current item _
  | some policy => exact modifyConfig_success_blind _

theorem umemBackendProcess_blind : Blind State.config (umemBackendProcess current item itemArg) :=
  Blind.ite (modifyConfig_success_blind _)
    (Blind.ite (modifyConfig_success_blind _) (logItem_bad_blind current item _))

theorem umemProfileProcess_blind : Blind State.config (umemProfileProcess itemArg) := by
  unfold umemProfileProcess
  cases itemArg with
  | none => exact Blind.bind (logMessage_silent _).blind fun _ => Blind.pure _
  | some arg =>
    apply Blind.ite _ (modifyConfig_success_blind _)
    exact Blind.bind (logMessage_silent _).blind fun _ => Blind.pure _

theorem callProcessor_blind : Blind State.config (callProcessor current item itemArg) := by
  unfold callProcessor
  split
  · unfold callSpecial
    split
    · exact Blind.fault
    · exact umemBackendProcess_blind current item itemArg
    · exact umemAllocatorProcess_blind current item itemArg
    · exact umemReapIntervalProcess_blind current item itemArg
    · exact umemSizeProcess_blind current item itemArg
    · exact umemProfileProcess_blind itemArg
    · exact umemLogProcess_blind current item itemArg
  all_goals first
    | exact Blind.ite (itemUintProcess_blind current item itemArg) (Blind.pure _)
    | exact Blind.ite (itemSizeProcess_blind current item itemArg) (Blind.pure _)
    | exact Blind.pure _

theorem applyFlag_blind : Blind State.config (applyFlag item) := by
  unfold applyFlag
  cases item.flagTarget with
  | none => exact Blind.pure _
  | some target => exact modifyConfig_blind _

theorem processItem_blind (secureMode : Bool) :
    Blind State.config (processItem current item secureMode itemArg) := by
  have hlog : ∀ text, Blind State.config (do logItem current item text; pure false) := fun text =>
    Blind.bind (logItem_blind current item text) fun _ => Blind.pure _
  unfold processItem
  apply Blind.ite
  · exact Blind.of_view (fun c => (false, c)) fun _ => rfl
  apply Blind.ite (hlog _)
  apply Blind.ite (hlog _)
  apply Blind.ite (hlog _)
  apply Blind.bind (callProcessor_blind current item itemArg)
  intro ret
  exact Blind.ite (Blind.bind (applyFlag_blind item) fun _ => Blind.pure _) (Blind.pure _)

end

section
variable {current : String} {itemList : List Item}

theorem processNamed_blind (secureMode : Bool) (name : CString) (arg : Option CString) :
    Blind State.config (processNamed current secureMode name arg itemList) := by
  induction itemList with
  | nil => exact (logMessage_silent _).blind
  | cons item itemList ih =>
    apply Blind.ite _ ih
    exact Blind.bind (processItem_blind current item arg secureMode) fun _ => Blind.pure _

theorem umemProcessValue_blind (secureMode : Bool) (token : CString) :
    Blind State.config (umemProcessValue current secureMode itemList token) :=
  Blind.ite (logMessage_silent _).blind
    (Blind.ite (logMessage_silent _).blind (processNamed_blind secureMode _ _))

theorem processNamed_silent {name : CString} (arg : Option CString)
    (h : ∀ item ∈ itemList, name = item.name.toList → item.secureUnsafe = true) :
    Silent State.config (processNamed current true name arg itemList) := by
  induction itemList with
  | nil => exact logMessage_silent _
  | cons item itemList ih =>
    unfold processNamed
    by_cases hname : name = item.name.toList
    · rw [if_pos hname, processItem, if_pos ⟨h item mem_cons_self hname, rfl⟩]
      exact fun _ => rfl
    · rw [if_neg hname]
      exact ih fun i hi => h i (mem_cons_of_mem item hi)

theorem envItemList_names (build : Build) : ∀ v ∈ Envvar.all, ∀ item ∈ v.envItemList build,
    item.name.toList.all (fun c => !isspace c) = true ∧
      (item.secureUnsafe = false → ∀ v' ∈ Envvar.all, ∀ item' ∈ v'.envItemList build,
        item'.secureUnsafe = true → item'.name ≠ item.name) := by
  obtain ⟨win32, introspect⟩ := build
  cases win32 <;> cases introspect <;> decide +kernel

theorem Envvar.mem_all (v : Envvar) : v ∈ Envvar.all := by
  cases v <;> decide

theorem trim_eq_self {name : CString} (h : name.all (fun c => !isspace c) = true) :
    trim name = name := by
  rw [all_eq_true] at h
  have hfront : name.dropWhile isspace = name := by
    rw [dropWhile_eq_self_iff]
    intro hpos
    simpa using h _ (getElem_mem hpos)
  rw [trim, hfront, rdropWhile_eq_self_iff]
  intro hne
  simpa using h _ (getLast_mem hne)

theorem secureUnsafe_of_unsafeName {build : Build} {v : Envvar} {item : Item}
    (hitem : item ∈ v.envItemList build) (h : unsafeName build (trim item.name.toList) = true) :
    item.secureUnsafe = true := by
  obtain ⟨hblank, hnames⟩ := envItemList_names build v v.mem_all item hitem
  rw [trim_eq_self hblank] at h
  simp only [unsafeName, any_eq_true, Bool.and_eq_true, beq_iff_eq] at h
  obtain ⟨v', -, item', hitem', hunsafe, hname⟩ := h
  by_contra hsafe
  exact hnames (Bool.eq_false_of_not_eq_true hsafe) v' v'.mem_all item' hitem' hunsafe
    (String.toList_inj.mp hname)

theorem umemProcessValue_silent {build : Build} (v : Envvar) {token : Token}
    (h : unsafeToken build token = true) :
    Silent State.config (umemProcessValue current true (v.envItemList build) token.val) := by
  unfold umemProcessValue
  dsimp only
  split
  · exact logMessage_silent _
  split
  · exact logMessage_silent _
  · apply processNamed_silent
    intro item hitem hname
    apply secureUnsafe_of_unsafeName hitem
    rw [← hname]
    exact h

theorem processTokens_append (secureMode : Bool) {token : CString} (h : ',' ∉ token)
    (front rest : CString) :
    processTokens current secureMode itemList front (token ++ rest) =
      processTokens current secureMode itemList (front ++ token) rest := by
  induction token generalizing front with
  | nil => simp
  | cons c token ih =>
    have hc : c ≠ ',' := fun hc => h (hc ▸ mem_cons_self)
    rw [cons_append, processTokens, if_neg hc, ih (fun hmem => h (mem_cons_of_mem c hmem)),
      append_assoc, singleton_append]

theorem processTokens_joinTokens (secureMode : Bool) (token : Token) (tokens : List Token) :
    processTokens current secureMode itemList [] (joinTokens (token :: tokens)) =
      (token :: tokens).forM fun t => umemProcessValue current secureMode itemList t.val := by
  induction tokens generalizing token with
  | nil =>
    have hjoin : joinTokens [token] = token.val ++ [] := by simp [joinTokens, intercalate]
    rw [hjoin, processTokens_append secureMode token.property, nil_append, processTokens]
    exact (bind_pure _).symm
  | cons token' tokens ih =>
    have hjoin : joinTokens (token :: token' :: tokens) =
        token.val ++ ',' :: joinTokens (token' :: tokens) := by
      simp [joinTokens, intercalate]
    rw [hjoin, processTokens_append secureMode token.property, nil_append, processTokens,
      if_pos rfl, ih]
    rfl

theorem processEnvvar_set {build : Build} {secureMode : Bool} {getenvResult : Results}
    (funcResult : Results) {v : Envvar} {tokens : List Token}
    (h : getenvResult v = some (joinTokens tokens)) (s : State) :
    shown State.config (processEnvvar build secureMode getenvResult funcResult v s) =
      shown State.config (tokens.forM (fun t =>
        umemProcessValue v.envName secureMode (v.envItemList build) t.val) s) := by
  unfold processEnvvar
  rw [h, Option.some_or]
  cases tokens with
  | nil => rfl
  | cons token tokens =>
    rw [← processTokens_joinTokens]
    cases joinTokens (token :: tokens) with
    -- the one empty token, which the loop does not even see
    | nil => rfl
    | cons c value => rfl

end

theorem Edit.filter_eq {build : Build} {tokens tokens' : List Token} (h : Edit build tokens tokens') :
    tokens.filter (fun t => !unsafeToken build t) =
      tokens'.filter (fun t => !unsafeToken build t) := by
  cases h with
  | insert before after h => simp [h]
  | delete before after h => simp [h]
  | alter before after h h' => simp [h, h']

theorem filter_eq_of_edits {build : Build} {tokens tokens' : List Token}
    (h : Relation.ReflTransGen (Edit build) tokens tokens') :
    tokens.filter (fun t => !unsafeToken build t) =
      tokens'.filter (fun t => !unsafeToken build t) := by
  induction h with
  | refl => rfl
  | tail _ hedit ih => exact ih.trans hedit.filter_eq

section
variable {build : Build} {getenvResult getenvResult' : Results} (funcResult : Results)

theorem processTokens_blind {current : String} {secureMode : Bool} {itemList : List Item}
    (token value : CString) :
    Blind State.config (processTokens current secureMode itemList token value) := by
  induction value generalizing token with
  | nil => exact umemProcessValue_blind secureMode token
  | cons c value ih =>
    exact Blind.ite (Blind.bind (umemProcessValue_blind secureMode token) fun _ => ih []) (ih _)

theorem processEnvvar_blind (secureMode : Bool) (v : Envvar) :
    Blind State.config (processEnvvar build secureMode getenvResult funcResult v) := by
  unfold processEnvvar
  split
  · exact Blind.pure _
  · exact Blind.pure _
  · exact processTokens_blind [] _

theorem processEnvvar_altered {v : Envvar} (h : Altered build (getenvResult v) (getenvResult' v)) :
    Alike State.config (processEnvvar build true getenvResult funcResult v)
      (processEnvvar build true getenvResult' funcResult v) := by
  generalize hset : getenvResult v = value at h
  generalize hset' : getenvResult' v = value' at h
  cases h with
  | unset =>
    have hsame : processEnvvar build true getenvResult funcResult v =
        processEnvvar build true getenvResult' funcResult v := by
      unfold processEnvvar
      rw [hset, hset']
    rw [hsame]
    exact processEnvvar_blind funcResult true v
  | set hedits =>
    intro s t hst
    rw [processEnvvar_set funcResult hset, processEnvvar_set funcResult hset']
    apply Silent.forM_congr (fun token => umemProcessValue_blind true token.val) _
      (filter_eq_of_edits hedits) s t hst
    intro token hunsafe
    exact umemProcessValue_silent v (by simpa using hunsafe)

theorem reportIgnored_silent : Silent State.config reportIgnored := by
  intro s
  unfold reportIgnored
  split
  · rfl
  · rfl

end

/-- Whatever is inserted, deleted or altered among the unsafe options, the configuration is the same
after `umem_process_envvars` in secure mode, or there is none in both cases because an option ran
into a null pointer. -/
theorem umemProcessEnvvars_noninterference (build : Build)
    (getenvResult getenvResult' funcResult : Results)
    (h : ∀ v, Altered build (getenvResult v) (getenvResult' v)) (s : State) :
    (umemProcessEnvvars build true getenvResult funcResult s).map (fun r => r.2.config) =
      (umemProcessEnvvars build true getenvResult' funcResult s).map (fun r => r.2.config) := by
  have halike : Alike State.config (umemProcessEnvvars build true getenvResult funcResult)
      (umemProcessEnvvars build true getenvResult' funcResult) :=
    Alike.bind (Alike.forM fun v _ => processEnvvar_altered funcResult (h v))
      fun _ => reportIgnored_silent.blind
  have hshown := congrArg (Option.map Prod.snd) (halike s s rfl)
  simpa only [shown, Option.map_map, Function.comp_def] using hshown

def zeroState : State := ⟨⟨fun _ => 0, fun _ => 0, umemAllocSizes, []⟩, 0, []⟩

/-- An environment that sets `UMEM_OPTIONS` only. -/
def onlyOptions (value : String) : Results
  | .umemOptions => some value.toList
  | _ => none

theorem umemProcessEnvvars_noninterference_profile :
    (umemProcessEnvvars ⟨false, true⟩ true (onlyOptions " profile=use:/f ,nomagazines")
        (fun _ => none) zeroState).map (fun r => r.2.config) =
      (umemProcessEnvvars ⟨false, true⟩ true (onlyOptions "nomagazines")
        (fun _ => none) zeroState).map (fun r => r.2.config) ∧
    (umemProcessEnvvars ⟨false, true⟩ true (onlyOptions "nomagazines")
        (fun _ => none) zeroState).map (fun r => r.2.config.uints .umemFlags) =
      some umfNomagazine := by
  constructor
  · apply umemProcessEnvvars_noninterference
    intro v
    cases v with
    | umemDebug => exact Altered.unset
    | umemLogging => exact Altered.unset
    | umemOptions =>
      let nomagazines : Token := ⟨"nomagazines".toList, by decide⟩
      let profile : Token := ⟨" profile=use:/f ".toList, by decide⟩
      have hunsafe : unsafeToken ⟨false, true⟩ profile = true := by decide +kernel
      exact Altered.set (.single (Edit.delete [] [nomagazines] hunsafe))
  · decide +kernel

end Libumem.Env
