import SinglePath.Session

/-!
The command line. A short option is a dash and a letter, and several letters may share a dash; a long option is two
dashes and a name. A value is attached, with or without an equals sign after a letter and with one after a name,
or is the next argument if that does not look like an option.
-/

namespace SinglePath

namespace CommandLine

inductive Switch where
  | preds
  | test
  | checkShape
  | keepLoads
  | dropStores
  /-- A path for allocation records. It is taken and checked like any value, and no file is written. -/
  | records
  | help
deriving DecidableEq, Repr

def Switch.takesValue : Switch → Bool
  | .preds | .test | .records => true
  | .checkShape | .keepLoads | .dropStores | .help => false

def Switch.ofLetter : Char → Option Switch
  | 'p' => some .preds
  | 't' => some .test
  | 'c' => some .checkShape
  | 'h' => some .help
  | _ => none

def Switch.ofName (name : List Char) : Option Switch :=
  match String.ofList name with
  | "no-load-elim" => some .keepLoads
  | "dse" => some .dropStores
  | "dump-alloc" => some .records
  | "help" => some .help
  | _ => none

inductive Stop where
  | help
  | misuse
deriving DecidableEq, Repr

abbrev Occurrence := Switch × Option String

/-- What one argument brings, and a switch that still waits for its value. -/
structure Reading where
  found : List Occurrence := []
  waiting : Option Switch := none

def readLetters : List Char → Except Stop Reading
  | [] => .ok {}
  | letter :: rest =>
    match Switch.ofLetter letter with
    | none => .error .misuse
    | some .help => .error .help
    | some switch =>
      if switch.takesValue then
        match rest with
        | [] => .ok { waiting := some switch }
        | '=' :: value => .ok { found := [(switch, some (String.ofList value))] }
        | value => .ok { found := [(switch, some (String.ofList value))] }
      else do
        let reading ← readLetters rest
        return { reading with found := (switch, none) :: reading.found }

def readName (text : List Char) : Except Stop Reading :=
  let name := text.takeWhile (· ≠ '=')
  match Switch.ofName name, text.drop name.length with
  | none, _ => .error .misuse
  | some .help, [] => .error .help
  | some switch, [] => .ok (if switch.takesValue then { waiting := some switch } else { found := [(switch, none)] })
  | some switch, _ :: value =>
    if switch.takesValue then .ok { found := [(switch, some (String.ofList value))] } else .error .misuse

/-- A lone dash is a value. -/
def looksLikeOption : List Char → Bool
  | '-' :: _ :: _ => true
  | _ => false

/-- No argument stands for itself, so none may follow the two dashes that end the options. -/
def readFrom : Option Switch → List (List Char) → Except Stop (List Occurrence)
  | waiting, [] => .ok (waiting.toList.map fun switch => (switch, none))
  | waiting, arg :: rest =>
    if looksLikeOption arg then do
      let unserved := waiting.toList.map fun switch => (switch, none)
      match arg with
      | ['-', '-'] => if rest.isEmpty then return unserved else throw .misuse
      | '-' :: '-' :: text =>
        let reading ← readName text
        return unserved ++ reading.found ++ (← readFrom reading.waiting rest)
      | text =>
        let reading ← readLetters text.tail
        return unserved ++ reading.found ++ (← readFrom reading.waiting rest)
    else
      match waiting with
      | some switch => do return (switch, some (String.ofList arg)) :: (← readFrom none rest)
      | none => .error .misuse

structure Request where
  test : String
  preds : String
  options : ReduceOptions

/-- Each switch occurs once at most, and one that takes a value has one. -/
def isProper (occurrences : List Occurrence) : Bool :=
  let switches := occurrences.map (·.1)
  decide switches.Nodup && occurrences.all fun occurrence => occurrence.2.isSome || !occurrence.1.takesValue

def valueOf (switch : Switch) (occurrences : List Occurrence) : Option String :=
  (occurrences.find? (·.1 == switch)).bind (·.2)

def request (args : List String) : Except Stop Request := do
  let occurrences ← readFrom none (args.map String.toList)
  let has (switch : Switch) : Bool := occurrences.any (·.1 == switch)
  match isProper occurrences, valueOf .test occurrences with
  | true, some test =>
    return {
      test := test
      preds := (valueOf .preds occurrences).getD "8"
      options := {
        checkShape := has .checkShape
        dropLoads := !has .keepLoads
        dropStores := has .dropStores } }
  | _, _ => throw .misuse

def readDigits (digits : List Char) : Option Nat :=
  if digits ≠ [] && digits.all Char.isDigit then
    some (digits.foldl (fun number digit => number * 10 + (digit.toNat - '0'.toNat)) 0)
  else
    none

/-- A decimal number of at most eight bits; a plus sign may stand before it. -/
def readByte (text : String) : Option Nat :=
  let number := match text.toList with
    | '+' :: digits => readDigits digits
    | digits => readDigits digits
  number.filter (· < 256)

def session (request : Request) : Session Unit := do
  match Samples.find? request.test with
  | none => Session.listNames
  | some sample =>
    let program ← Session.lift sample
    match readByte request.preds with
    | none => Session.sayLine "invalid pregs value"
    | some count => Session.reduce program { predCount := count } request.options

/-- What a command line leaves: its exit code and its output. -/
structure Transcript where
  code : Nat
  output : String
deriving DecidableEq, Repr

/-- Misuse and a crash have exit codes of their own. -/
def run (args : List String) : Transcript :=
  match request args with
  | .error .help => ⟨0, ""⟩
  | .error .misuse => ⟨2, ""⟩
  | .ok request =>
    match session request "" with
    | .ok _ output => ⟨0, output⟩
    | .error _ output => ⟨101, output⟩

end CommandLine

end SinglePath
