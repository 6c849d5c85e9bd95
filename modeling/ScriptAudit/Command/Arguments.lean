import ScriptAudit.Number.Numeral
import ScriptAudit.Text.Search

/-!
# Arguments of the command line

A command with a path and options. A long option may be shortened and may carry its value after an
equals sign; short options may be written together. After `--` nothing is an option.
-/

namespace ScriptAudit.Command

inductive Flag where
  | help | version | output | verbose | asModule | jobs | showErrors
  deriving DecidableEq, Repr

def Flag.takesValue : Flag → Bool
  | output | jobs => true
  | _ => false

abbrev Spellings := List (String × Flag)

def mainSpellings : Spellings :=
  [("-h", .help), ("--help", .help), ("--version", .version)]

def analyseSpellings : Spellings :=
  [("-h", .help), ("--help", .help), ("-o", .output), ("--output", .output), ("-v", .verbose),
    ("--verbose", .verbose), ("--module", .asModule), ("-j", .jobs), ("--jobs", .jobs),
    ("--show-errors", .showErrors)]

inductive Word where
  | value (text : String)
  | option (flag : Flag) (short : Bool) (carried : Option String)
  | unknown (text : String)
  | divider
  | ambiguous
  deriving DecidableEq, Repr

def isDigits (cs : List Char) : Bool :=
  !cs.isEmpty && cs.all fun c => (Text.decimalValue? c).isSome

def isNegativeNumber (s : String) : Bool :=
  match s.toList with
  | '-' :: cs =>
    isDigits cs || match cs.span (· != '.') with
      | (whole, '.' :: fraction) => (whole.isEmpty || isDigits whole) && isDigits fraction
      | _ => false
  | _ => false

def splitAtEquals? (s : String) : Option (String × String) :=
  (Text.cut? ['='] s.toList).map fun (a, b) => (String.ofList a, String.ofList b)

def exactOption? (known : Spellings) (s : String) : Option Word :=
  match known.lookup s with
  | some flag => some (.option flag (!Text.startsWith s "--") none)
  | none =>
    (splitAtEquals? s).bind fun (name, carried) =>
      (known.lookup name).map fun flag => .option flag (!Text.startsWith name "--") (some carried)

def shortenedOptions (known : Spellings) (s : String) : List Word :=
  if Text.startsWith s "--" then
    let (start, carried) := match splitAtEquals? s with
      | some (name, v) => (name, some v)
      | none => (s, none)
    (known.filter fun (name, _) => Text.startsWith name start).map fun (_, flag) =>
      .option flag false carried
  else
    (known.filter fun (name, _) => name == String.ofList (s.toList.take 2)).map fun (_, flag) =>
      .option flag true (some (String.ofList (s.toList.drop 2)))

def classify (known : Spellings) (s : String) : Word :=
  if s == "--" then .divider
  else if !Text.startsWith s "-" || s == "-" then .value s
  else match exactOption? known s with
    | some w => w
    | none =>
      match shortenedOptions known s with
      | [w] => w
      | _ :: _ :: _ => .ambiguous
      | [] =>
        if isNegativeNumber s || s.toList.contains ' ' then .value s else .unknown s

/-! ## Options in groups -/

structure Group where
  flags : List Flag
  carried : Option String

def openGroup (known : Spellings) (flag : Flag) (short : Bool) : List Char → Option Group
  | [] => none
  | c :: rest =>
    if flag.takesValue then some ⟨[flag], some (String.ofList (c :: rest))⟩
    else if !short then none
    else match known.lookup (String.ofList ['-', c]) with
      | none => none
      | some next =>
        if rest.isEmpty then some ⟨[flag, next], none⟩
        else (openGroup known next true rest).map fun g => { g with flags := flag :: g.flags }

def groupOf (known : Spellings) (flag : Flag) (short : Bool) : Option String → Option Group
  | none => some ⟨[flag], none⟩
  | some carried =>
    if flag.takesValue then some ⟨[flag], some carried⟩ else openGroup known flag short carried.toList

/-! ## Reading the command line -/

structure Request where
  path : String
  output : Option String := none
  verbose : Bool := false
  asModule : Bool := false
  jobs : Int := 1
  showErrors : Bool := false
  deriving DecidableEq, Repr

inductive Invocation where
  | analyse (request : Request)
  | help
  | version
  | idle
  | misuse
  deriving DecidableEq, Repr

structure Reading where
  path : Option String := none
  request : Request := ⟨"", none, false, false, 1, false⟩
  surplus : Bool := false

def Reading.take (r : Reading) (flag : Flag) (carried : Option String) : Except Invocation Reading :=
  match flag, carried with
  | .help, _ => .error .help
  | .version, _ => .error .version
  | .verbose, _ => .ok { r with request := { r.request with verbose := true } }
  | .asModule, _ => .ok { r with request := { r.request with asModule := true } }
  | .showErrors, _ => .ok { r with request := { r.request with showErrors := true } }
  | .output, some v => .ok { r with request := { r.request with output := some v } }
  | .jobs, some v =>
    match Number.numeral v with
    | .ok n => .ok { r with request := { r.request with jobs := n } }
    | .error _ => .error .misuse
  | .output, none | .jobs, none => .error .misuse

def Reading.takeAll (r : Reading) (flags : List Flag) (carried : Option String) :
    Except Invocation Reading :=
  flags.foldlM (fun r flag => r.take flag (if flag.takesValue then carried else none)) r

def Group.needsValue (g : Group) : Bool :=
  g.carried.isNone && (g.flags.getLast?.map Flag.takesValue).getD false

def Reading.value (r : Reading) (s : String) : Reading :=
  match r.path with
  | none => { r with path := some s }
  | some _ => { r with surplus := true }

def Reading.divided (r : Reading) (afterPath : Bool) (rest : List String) : Reading :=
  let r := if r.path.isSome && !afterPath then { r with surplus := true } else r
  rest.foldl Reading.value r

def readArguments (r : Reading) (afterPath : Bool) : List String → Except Invocation Reading
  | [] => .ok r
  | [s] =>
    match classify analyseSpellings s with
    | .value v => .ok (r.value v)
    | .unknown _ => .ok { r with surplus := true }
    | .divider => .ok (r.divided afterPath [])
    | .ambiguous => .error .misuse
    | .option flag short carried =>
      match groupOf analyseSpellings flag short carried with
      | none => .error .misuse
      | some g => if g.needsValue then .error .misuse else r.takeAll g.flags g.carried
  | s :: next :: rest =>
    match classify analyseSpellings s with
    | .value v => readArguments (r.value v) r.path.isNone (next :: rest)
    | .unknown _ => readArguments { r with surplus := true } false (next :: rest)
    | .divider => .ok (r.divided afterPath (next :: rest))
    | .ambiguous => .error .misuse
    | .option flag short carried =>
      match groupOf analyseSpellings flag short carried with
      | none => .error .misuse
      | some g =>
        if g.needsValue then
          match classify analyseSpellings next with
          | .value v => do readArguments (← r.takeAll g.flags (some v)) false rest
          | _ => .error .misuse
        else do readArguments (← r.takeAll g.flags g.carried) false (next :: rest)

def Reading.invocation (r : Reading) : Invocation :=
  match r.path with
  | none => .misuse
  | some path => if r.surplus then .misuse else .analyse { r.request with path := path }

def commandName : String := "analyze"

def readCommand (surplus : Bool) : List String → Invocation
  | [] => if surplus then .misuse else .idle
  | s :: rest =>
    match classify mainSpellings s with
    | .unknown _ => readCommand true rest
    | .divider => .misuse
    | .ambiguous => .misuse
    | .option flag short carried =>
      match groupOf mainSpellings flag short carried with
      | none => .misuse
      | some g =>
        match ({} : Reading).takeAll g.flags g.carried with
        | .error i => i
        | .ok _ => readCommand surplus rest
    | .value v =>
      if v == commandName then
        match readArguments { surplus := surplus } false rest with
        | .error i => i
        | .ok r => r.invocation
      else .misuse

def hasAmbiguity (words : List String) : Bool :=
  (words.takeWhile (· != "--")).any fun s => classify mainSpellings s == .ambiguous

def Invocation.ofWords (words : List String) : Invocation :=
  if hasAmbiguity words then .misuse else readCommand false words

end ScriptAudit.Command
