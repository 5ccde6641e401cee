import StepGraph.Text.Digit

/-!
# Arguments of a command line

An argument is read by itself first (`Token.ofArgument`): it is an option, with its value if that
is joined to it, or it is plain. An option's long name may be shortened as long as it is the only
one that starts that way. `Found.resolve` then takes the letters after a short option without a
value as further short options. After an argument `--` everything is plain.
-/

set_option autoImplicit false

namespace StepGraph.Cli

/-- What an option sets or asks for. -/
inductive Setting
  | help
  | version
  | debug
  | eventSource
  | output
  deriving DecidableEq, Repr

def Setting.takesValue : Setting → Bool
  | .eventSource | .output => true
  | _ => false

/-- Why the arguments name no command to run. -/
inductive Stop
  | help
  | version
  | misuse
  deriving DecidableEq, Repr

/-- The options that are known at some point, by their names. -/
abbrev Known := List (String × Setting)

/-- An option as it was found: the setting, whether its name is short, and the text joined to it,
with or without an equals sign between them. -/
structure Found where
  setting : Setting
  isShort : Bool
  joined : Option String
  hasEquals : Bool
  deriving DecidableEq

inductive Token
  | plain (s : String)
  /-- The argument after which everything is plain. -/
  | divider
  | option (found : Found)
  | unknown
  deriving DecidableEq

/-- Digits with at most one point among them, and one at least after it. -/
def isUnsigned (cs : List Char) : Bool :=
  let isDigit (c : Char) := (Text.decimalDigit? c).isSome
  match cs.dropWhile isDigit with
  | [] => !cs.isEmpty
  | '.' :: fraction => !fraction.isEmpty && fraction.all isDigit
  | _ => false

def isNegativeNumber : List Char → Bool
  | '-' :: cs => isUnsigned cs
  | _ => false

/-- The text before the first equals sign, and the text after it if there is one. -/
def splitAtEquals (cs : List Char) : List Char × Option String :=
  match cs.span (· != '=') with
  | (name, _ :: value) => (name, some (String.ofList value))
  | (name, []) => (name, none)

/-- The long options whose names start with what stands before an equals sign. -/
def longCandidates (known : Known) (cs : List Char) : List Found :=
  let (start, value) := splitAtEquals cs
  (known.filter fun option => start.isPrefixOf option.1.toList).map fun option =>
    ⟨option.2, false, value, value.isSome⟩

/-- The short options whose names are the first two characters. -/
def shortCandidates (known : Known) (cs : List Char) : List Found :=
  (known.filter fun option => option.1.toList == cs.take 2).map fun option =>
    ⟨option.2, true, some (String.ofList (cs.drop 2)), false⟩

def isShortName (name : List Char) : Bool :=
  name.length == 2

/-- An argument that starts with a dash and has more than that. -/
def Token.ofDashed (known : Known) (cs : List Char) : Except Stop Token :=
  let (name, value) := splitAtEquals cs
  match known.lookup (String.ofList name) with
  | some setting => .ok (.option ⟨setting, isShortName name, value, value.isSome⟩)
  | none =>
    let candidates :=
      if "--".toList.isPrefixOf cs then longCandidates known cs else shortCandidates known cs
    match candidates with
    | [found] => .ok (.option found)
    | _ :: _ => .error .misuse
    | [] =>
      if isNegativeNumber cs || cs.contains ' ' then .ok (.plain (String.ofList cs))
      else .ok .unknown

def Token.ofArgument (known : Known) (argument : String) : Except Stop Token :=
  match argument.toList with
  | '-' :: c :: rest => ofDashed known ('-' :: c :: rest)
  | _ => .ok (.plain argument)

/-- The tokens of some arguments. -/
def tokens (known : Known) : List String → Except Stop (List Token)
  | [] => .ok []
  | "--" :: rest => .ok (.divider :: rest.map .plain)
  | argument :: rest => do
    let first ← Token.ofArgument known argument
    return first :: (← tokens known rest)

/-! ## Settings of an option -/

/-- The settings that an option makes. -/
structure Resolved where
  /-- Settings without a value, in order. -/
  flags : List Setting
  /-- A setting that takes a value after those, and the value if it is joined to it. -/
  valued : Option (Setting × Option String)
  /-- Whether letters are left that are no option. -/
  hasExtra : Bool

/-- One setting, with the value joined to it if it takes one. -/
def Resolved.one (setting : Setting) (value : Option String) : Resolved :=
  if setting.takesValue then ⟨[], some (setting, value), false⟩ else ⟨[setting], none, false⟩

/-- A setting that takes a value, before the letters that follow its own. -/
def valuedBy (setting : Setting) : List Char → Resolved
  | [] => .one setting none
  | '=' :: value => .one setting (some (String.ofList value))
  | value => .one setting (some (String.ofList value))

/-- A short option without a value, and the letters after it as further options. -/
def cluster (known : Known) (flag : Setting) : List Char → Except Stop Resolved
  | [] => .ok (.one flag none)
  | '-' :: _ => .error .misuse
  | c :: rest =>
    match known.lookup (String.ofList ['-', c]) with
    | none => .ok ⟨[flag], none, true⟩
    | some next => do
      let found ←
        if next.takesValue then pure (valuedBy next rest)
        else if rest.head? = some '=' then throw .misuse
        else cluster known next rest
      return { found with flags := flag :: found.flags }

def Found.resolve (known : Known) (f : Found) : Except Stop Resolved :=
  match f.joined with
  | none => .ok (.one f.setting none)
  | some value =>
    if f.setting.takesValue then .ok (.one f.setting (some value))
    else if f.isShort && !f.hasEquals && value != "" then cluster known f.setting value.toList
    else .error .misuse

/-- What the options given so far have set. -/
structure Settings where
  debug : Bool
  eventSource : Option String
  output : Option String
  /-- Whether there was an argument with no meaning. -/
  hasExtra : Bool
  deriving DecidableEq

def Settings.none : Settings := ⟨false, .none, .none, false⟩

/-- The settings after one more. A later value replaces an earlier one. -/
def Settings.set (s : Settings) (value : Option String) : Setting → Except Stop Settings
  | .help => .error .help
  | .version => .error .version
  | .debug => .ok { s with debug := true }
  | .eventSource => .ok { s with eventSource := value }
  | .output => .ok { s with output := value }

def Settings.setFlags (s : Settings) : List Setting → Except Stop Settings
  | [] => .ok s
  | flag :: rest => do (← s.set .none flag).setFlags rest

/-- The settings after the flags of an option. -/
def Settings.apply (s : Settings) (r : Resolved) : Except Stop Settings :=
  { s with hasExtra := s.hasExtra || r.hasExtra }.setFlags r.flags

end StepGraph.Cli
