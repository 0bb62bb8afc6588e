import Libumem.Env.Items

/-!
# Reading the environment

`umem_process_envvars` cuts the value of each variable at its commas, and `umem_process_value` trims
a part, cuts it at its first equals sign and looks it up in the items of the variable.
-/

namespace Libumem.Env

/-- `UMEM_ENV_ITEM_MAX`. -/
def umemEnvItemMax : Nat := 512

/-- `ENV_SHORT_BYTES`. -/
def envShortBytes : Nat := 10

/-- The first loops of `umem_process_value`. -/
def trim (token : CString) : CString := (token.dropWhile isspace).rdropWhile isspace

/-- What the buffer holds once its first equals sign is overwritten. -/
def nameOf (buf : CString) : CString := buf.takeWhile (· ≠ '=')

/-- What stands behind the first equals sign. -/
def argOf (buf : CString) : Option CString := (buf.dropWhile (· ≠ '=')).tail?

section
variable (current : String) (secureMode : Bool)

/-- The lookup at the end of `umem_process_value`. -/
def processNamed (name : CString) (arg : Option CString) : List Item → Proc Unit
  | [] => logMessage (current ++ ": '" ++ String.ofList name ++ "' not recognized\n")
  | item :: itemList =>
    if name = item.name.toList then do
      let _ ← processItem current item secureMode arg
      pure ()
    else processNamed name arg itemList

def umemProcessValue (itemList : List Item) (token : CString) : Proc Unit :=
  let buf := trim token
  if buf = [] then logMessage (current ++ ": empty option\n")
  else if umemEnvItemMax < buf.length + 1 then
    logMessage (current ++ ": argument \"" ++ String.ofList (buf.take envShortBytes) ++
      "...\" too long\n")
  else processNamed current secureMode (nameOf buf) (argOf buf) itemList

/-- The loop over one value: the characters since the last comma, and those to come. -/
def processTokens (itemList : List Item) : CString → CString → Proc Unit
  | token, [] => umemProcessValue current secureMode itemList token
  | token, c :: value =>
    if c = ',' then do
      umemProcessValue current secureMode itemList token
      processTokens itemList [] value
    else processTokens itemList (token ++ [c]) value

end

/-- The entries of `umem_envvars`, in their order. -/
inductive Envvar
  | umemDebug
  | umemOptions
  | umemLogging
  deriving DecidableEq, Repr

namespace Envvar

def all : List Envvar := [umemDebug, umemOptions, umemLogging]

def envName : Envvar → String
  | umemDebug => "UMEM_DEBUG"
  | umemOptions => "UMEM_OPTIONS"
  | umemLogging => "UMEM_LOGGING"

def envItemList (build : Build) : Envvar → List Item
  | umemDebug => umemDebugItems
  | umemOptions => umemOptionsItems build
  | umemLogging => umemLoggingItems

end Envvar

/-- The results of `umem_setup_envvars`: a variable that is not set has a null pointer. -/
abbrev Results := Envvar → Option CString

/-- The body of the loop over the variables. -/
def processEnvvar (build : Build) (secureMode : Bool) (getenvResult funcResult : Results)
    (cur : Envvar) : Proc Unit :=
  match (getenvResult cur).or (funcResult cur) with
  | none => pure ()
  -- an empty value has no token at all
  | some [] => pure ()
  | some value => processTokens cur.envName secureMode (cur.envItemList build) [] value

/-- The report at the end of `umem_process_envvars`. -/
def reportIgnored : Proc Unit := fun s =>
  if s.umemEnvSecureIgnored ≠ 0 then
    logMessage ("secure mode (setugid/AT_SECURE): ignored " ++
      toString s.umemEnvSecureIgnored.toNat ++
      " UMEM_* option(s) with file, socket, exec or disclosure side effects\n") s
  else some ((), s)

def umemProcessEnvvars (build : Build) (secureMode : Bool) (getenvResult funcResult : Results) :
    Proc Unit := do
  Envvar.all.forM (processEnvvar build secureMode getenvResult funcResult)
  reportIgnored

end Libumem.Env
