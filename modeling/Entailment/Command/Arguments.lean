/-! # Command line arguments

The command has two subcommands, which share some options. A long option has its value in the next
argument or behind an equals sign, a short one in the next argument or right behind its letter.

* **`CommandOption`** — the options;
* **`Request`** — what a command line asks for;
* **`Request.parse`** — the request of a list of arguments, or none if their usage is wrong. -/

namespace Entailment.Command

/-- The options of the command. -/
inductive CommandOption where
  /-- More messages. -/
  | verbose
  /-- The help text. -/
  | help
  /-- The version of the command. -/
  | version
  /-- The parse file of the text. -/
  | text
  /-- The parse file of the hypothesis. -/
  | hypothesis
  /-- Feature strings in the output. -/
  | features
  /-- The file of pairs. -/
  | pairs
  /-- The file for the feature index that is learned. -/
  | writeIndex
  /-- The file of a feature index to encode with. -/
  | readIndex
  /-- The file of an aligner's judgments. -/
  | alignments
  /-- The manual list. -/
  | manual
  /-- The configuration. -/
  | config
  deriving DecidableEq, Repr

namespace CommandOption

/-- The long name of an option. -/
def long : CommandOption → String
  | .verbose => "verbose"
  | .help => "help"
  | .version => "version"
  | .text => "text"
  | .hypothesis => "hypothesis"
  | .features => "features"
  | .pairs => "pairs"
  | .writeIndex => "write-index"
  | .readIndex => "read-index"
  | .alignments => "alignments"
  | .manual => "manual"
  | .config => "config"

/-- The letter of an option, if it has one. -/
def letter? : CommandOption → Option Char
  | .verbose => some 'v'
  | .help => some 'h'
  | .version => some 'V'
  | .text => some 't'
  | .hypothesis => some 'H'
  | .features => none
  | .pairs => some 'p'
  | .writeIndex => none
  | .readIndex => none
  | .alignments => some 'a'
  | .manual => some 'm'
  | .config => some 'c'

/-- Whether an option has a value. -/
def takesValue : CommandOption → Bool
  | .verbose | .help | .version | .features => false
  | _ => true

end CommandOption

/-- Where on the command line an argument stands. -/
inductive Place where
  /-- Before the subcommand. -/
  | top
  /-- Behind the subcommand for one pair. -/
  | pair
  /-- Behind the subcommand for a file of pairs. -/
  | batch
  deriving DecidableEq, Repr

/-- The options that are understood at a place. -/
def Place.options : Place → List CommandOption
  | .top => [.verbose, .help, .version]
  | .pair =>
    [.verbose, .help, .text, .hypothesis, .features, .alignments, .manual, .config]
  | .batch => [.verbose, .help, .pairs, .writeIndex, .readIndex, .alignments, .manual, .config]

/-- Files that both subcommands may name. -/
structure SharedFiles where
  /-- The file of an aligner's judgments. -/
  alignments : Option String
  /-- The manual list. -/
  manual : Option String
  /-- The configuration. -/
  config : Option String
  deriving DecidableEq, Repr

/-- What a command line asks for. -/
inductive Request where
  /-- The help text. -/
  | help
  /-- The version of the command. -/
  | version
  /-- The measurement of one pair. -/
  | pair (text hypothesis : String) (features : Bool) (shared : SharedFiles)
  /-- The measurements of a file of pairs. -/
  | batch (pairs : String) (writeIndex readIndex : Option String) (shared : SharedFiles)
  deriving DecidableEq, Repr

/-- The options met so far, with their values, the last one first. -/
abbrev Given := List (CommandOption × String)

/-- What an option with its value leads to: more options, or a request at once. -/
inductive Met where
  /-- The options so far. -/
  | options (given : Given)
  /-- The request. -/
  | request (r : Request)

/-- The effect of one more option. Only the wish for more messages may be repeated, and a value may
not be empty. -/
def meet (given : Given) (o : CommandOption) (value : String) : Option Met :=
  match o with
  | .help => some (.request .help)
  | .version => some (.request .version)
  | .verbose => some (.options given)
  | _ =>
    if given.any (·.1 == o) || (o.takesValue && value.isEmpty) then none
    else some (.options ((o, value) :: given))

/-- What an argument with options leads to: what was met, and an option whose value is in the next
argument. -/
abbrev Scanned := Met × Option CommandOption

/-- The effect of letters behind a dash. The first one with a value takes the rest, less an equals
sign in front. -/
def scanLetters (place : Place) (given : Given) : List Char → Option Scanned
  | [] => some (.options given, none)
  | c :: cs =>
    match place.options.find? fun o => o.letter? == some c with
    | none => none
    | some o =>
      if o.takesValue then
        match cs with
        | [] => some (.options given, some o)
        | '=' :: value => (meet given o (String.ofList value)).map (·, none)
        | value => (meet given o (String.ofList value)).map (·, none)
      else
        match meet given o "" with
        | some (.options given) => scanLetters place given cs
        | some (.request r) => some (.request r, none)
        | none => none

/-- The effect of what stands behind two dashes: a name, and maybe an equals sign and a value. -/
def scanLong (place : Place) (given : Given) (cs : List Char) : Option Scanned :=
  let name := String.ofList (cs.takeWhile (· ≠ '='))
  match place.options.find? fun o => o.long == name with
  | none => none
  | some o =>
    match cs.dropWhile (· ≠ '='), o.takesValue with
    | [], false => (meet given o "").map (·, none)
    | [], true => some (.options given, some o)
    | _ :: value, true => (meet given o (String.ofList value)).map (·, none)
    | _ :: _, false => none

/-- The value of an option among those given. -/
def value? (given : Given) (o : CommandOption) : Option String := given.lookup o

/-- The request of the options given to a subcommand. A needed option may not be missing, and an
index is either written or read. -/
def finish (place : Place) (given : Given) : Option Request :=
  let shared : SharedFiles :=
    { alignments := value? given .alignments, manual := value? given .manual
      config := value? given .config }
  match place with
  | .top => none
  | .pair => do
    let text ← value? given .text
    let hypothesis ← value? given .hypothesis
    return .pair text hypothesis (value? given .features).isSome shared
  | .batch => do
    let pairs ← value? given .pairs
    match value? given .writeIndex, value? given .readIndex with
    | some _, some _ => none
    | writeIndex, readIndex => return .batch pairs writeIndex readIndex shared

/-- The request for help on the subcommands named. -/
def helpOn : List String → Option Request
  | [] => some .help
  | [name] => if name ∈ ["pair", "batch", "help"] then some .help else none
  | _ => none

/-- The request of further arguments, after the options given so far and maybe one that still waits
for its value. -/
def parseFrom (place : Place) (given : Given) (waiting : Option CommandOption) :
    List String → Option Request
  | [] => if waiting.isSome then none else finish place given
  | arg :: rest =>
    -- No option before the subcommand has a value, so these words are not taken for one.
    if place = .top ∧ arg = "pair" then parseFrom .pair given none rest
    else if place = .top ∧ arg = "batch" then parseFrom .batch given none rest
    else if place = .top ∧ arg = "help" then helpOn rest
    else
      let scanned : Option Scanned :=
        match arg.toList, waiting with
        -- Behind two dashes nothing is an option, and there is no place for anything else.
        | ['-', '-'], none => if rest.isEmpty then some (.options given, none) else none
        | '-' :: '-' :: name, none => scanLong place given name
        | '-' :: c :: letters, none => scanLetters place given (c :: letters)
        -- What looks like an option is not a value; a single dash is.
        | '-' :: _ :: _, some _ => none
        | _, some o => (meet given o arg).map (·, none)
        | _, none => none
      match scanned with
      | none => none
      | some (.request r, _) => some r
      | some (.options given, waiting) => parseFrom place given waiting rest

/-- The request of a list of arguments. -/
def Request.parse (args : List String) : Option Request := parseFrom .top [] none args

end Entailment.Command
