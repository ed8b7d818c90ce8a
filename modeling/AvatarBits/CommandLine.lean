import AvatarBits.Avatar.Reading
import AvatarBits.Compression.Writing

/-!
# The command line

Three commands read an avatar description from a file or from standard input:
`analyze` prints bounds, `compress` writes the packed avatar or what packing
adds, `verify` packs and tries every codec. An option may be given once, the
flag for more messages any number of times, and `--` ends the options.

* `Command.parse?`: the command of some arguments; none for a usage error.
* `Command.respond`: what a command does with the text it reads.
-/
namespace AvatarBits

open Json

/-- What `compress` writes: the whole avatar, or what packing adds. -/
inductive Emit where
  | avatar
  | layers
  deriving DecidableEq, Repr

/-- The three commands. -/
inductive Task where
  | analyze
  | compress
  | verify
  deriving DecidableEq, Repr

/-- The command of a word. -/
def Task.ofWord? : String → Option Task
  | "analyze" => some .analyze
  | "compress" => some .compress
  | "verify" => some .verify
  | _ => none

/-- What arguments say so far; an option that was not given is absent. -/
structure Options where
  input : Option String := none
  writeDefaults : Option WriteDefaultsPolicy := none
  layout : Option LayerLayout := none
  output : Option String := none
  emit : Option Emit := none
  deriving DecidableEq, Repr

namespace Options

/-- Options of the compression itself. -/
def config (o : Options) : Config :=
  ⟨o.writeDefaults.getD .auto, o.layout.getD .fused⟩

/-- Long names of the options with a value that a command takes. -/
def names : Task → List String
  | .analyze => []
  | .compress => ["write-defaults", "layout", "output", "emit"]
  | .verify => ["write-defaults", "layout"]

/-- A path, which is not empty. -/
def path? (text : String) : Option String := if text.isEmpty then none else some text

/-- Give an option its value: once only, and one of its words. -/
def set? (o : Options) (name value : String) : Option Options :=
  match name with
  | "write-defaults" =>
    if o.writeDefaults.isSome then none
    else ([("auto", WriteDefaultsPolicy.auto), ("off", .off), ("on", .on)].lookup value).map
      fun x => { o with writeDefaults := some x }
  | "layout" =>
    if o.layout.isSome then none
    else ([("fused", LayerLayout.fused), ("split", .split)].lookup value).map fun x =>
      { o with layout := some x }
  | "output" =>
    if o.output.isSome then none else (path? value).map fun x => { o with output := some x }
  | "emit" =>
    if o.emit.isSome then none
    else ([("avatar", Emit.avatar), ("layers", .layers)].lookup value).map fun x =>
      { o with emit := some x }
  | _ => none

/-- Take an argument that is no option. -/
def positional? (o : Options) (arg : String) : Option Options :=
  if o.input.isSome then none else (path? arg).map fun x => { o with input := some x }

end Options

/-! ## Arguments -/

/-- What the arguments ask for. -/
inductive Command where
  | help
  | run (task : Task) (options : Options)
  deriving DecidableEq, Repr

/-- An argument by its form. -/
inductive Arg where
  | stop
  | long (name : String) (value : Option String)
  | short (letters : List Char)
  | plain (text : String)
  deriving DecidableEq, Repr

/-- The form of an argument; a lone dash is plain. -/
def Arg.of (arg : String) : Arg :=
  match arg.toList with
  | ['-', '-'] => .stop
  | '-' :: '-' :: cs =>
    .long (String.ofList (cs.takeWhile (· != '=')))
      (match cs.dropWhile (· != '=') with
        | _ :: value => some (String.ofList value)
        | [] => none)
  | '-' :: c :: cs => .short (c :: cs)
  | _ => .plain arg

/-- An option's value in the argument after it, which must not look like an option itself. -/
def valueAfter? : List String → Option (String × List String)
  | [] => none
  | arg :: rest =>
    match Arg.of arg with
    | .plain text => some (text, rest)
    | _ => none

/-- What a run of one-letter options comes to. -/
inductive Letters where
  | flags
  | help
  | output (attached : List Char)
  | unknown
  deriving DecidableEq, Repr

/-- Read one-letter options: `v` and `h` stand alone, `o` takes the rest as its value. -/
def Letters.of (takesOutput : Bool) : List Char → Letters
  | [] => .flags
  | 'v' :: cs => of takesOutput cs
  | 'h' :: _ => .help
  | 'o' :: cs => if takesOutput then .output cs else .unknown
  | _ => .unknown

namespace Command

/-- The arguments of a command. The budget is at least their number. -/
def parseOptions? (task : Task) : (budget : Nat) → List String → Options → Option Command
  | 0, _, _ => none
  | _ + 1, [], o => some (.run task o)
  | budget + 1, arg :: rest, o =>
    match Arg.of arg with
    | .stop => (rest.foldlM Options.positional? o).map (.run task)
    | .plain text => do parseOptions? task budget rest (← o.positional? text)
    | .long "verbose" none => parseOptions? task budget rest o
    | .long "help" none => some .help
    | .long name value =>
      if (Options.names task).contains name then do
        let (value, rest) ← match value with
          | some value => some (value, rest)
          | none => valueAfter? rest
        parseOptions? task budget rest (← o.set? name value)
      else none
    | .short letters =>
      match Letters.of ((Options.names task).contains "output") letters with
      | .flags => parseOptions? task budget rest o
      | .help => some .help
      | .unknown => none
      | .output attached => do
        let (value, rest) ← match attached with
          | [] => valueAfter? rest
          | '=' :: value => some (String.ofList value, rest)
          | value => some (String.ofList value, rest)
        parseOptions? task budget rest (← o.set? "output" value)

/-- The command of some arguments; none for a usage error. -/
def parse? : List String → Option Command
  | [] => none
  | arg :: rest =>
    match Arg.of arg with
    | .long "verbose" none => parse? rest
    | .long "help" none => some .help
    | .short letters =>
      match Letters.of false letters with
      | .flags => parse? rest
      | .help => some .help
      | _ => none
    | .plain "help" =>
      match rest with
      | [] => some .help
      | [word] => if word = "help" || (Task.ofWord? word).isSome then some .help else none
      | _ => none
    | .plain word => do parseOptions? (← Task.ofWord? word) (rest.length + 1) rest {}
    | _ => none

end Command

/-! ## Responses -/

/-- What a command does in the end. -/
inductive Response where
  | fail (message : String)
  | print (text : String)
  | write (path text : String)
  deriving DecidableEq, Repr

/-- A name in a column of 32 characters. -/
def nameColumn (name : String) : String :=
  name ++ String.ofList (List.replicate (32 - name.length) ' ')

/-- A number at the right of a column of three characters. -/
def rightColumn (i : Int) : String :=
  let s := toString i
  String.ofList (List.replicate (3 - s.length) ' ') ++ s

/-- A number at the left of a column of three characters. -/
def leftColumn (i : Int) : String :=
  let s := toString i
  s ++ String.ofList (List.replicate (3 - s.length) ' ')

/-- What `analyze` prints. -/
def Analysis.text (a : Analysis) : String :=
  String.join (a.bounds.entries.map fun (name, bound) =>
      s!"{nameColumn name} bound {rightColumn bound}  bits {bitsFor bound}\n")
    ++ String.join (a.pruned.map fun (name, bound) =>
      s!"{nameColumn name} bound {rightColumn bound}  pruned\n")
    ++ s!"write defaults: {a.usage.states} states analyzed, all writing: {a.usage.all}\n"

/-- What `verify` prints for a codec that passes. -/
def Entry.verified (e : Entry) : String :=
  s!"{nameColumn e.name} 0..={leftColumn e.bound} {e.width} bits, depth {e.depth}: ok\n"

/-- What `compress` writes. -/
def compressText (options : Options) (a : Avatar) : Except PackError String := do
  let emit := options.emit.getD .avatar
  match ← (a.compress options.config).1, emit with
  | .packed output, .layers => return output.toValue.text .indented
  | .packed output, .avatar => return (← output.apply a).describe
  | .skipped reason, .layers =>
    return (Value.object [("skipped", .string reason.word)]).text .indented
  | .skipped _, .avatar => return a.describe

/-- What `verify` prints. -/
def verifyText (options : Options) (a : Avatar) : Except PackError String := do
  match ← (a.compress options.config).1 with
  | .skipped reason => return s!"nothing to verify: {reason.text}\n"
  | .packed output =>
    output.verify
    return String.join (output.report.map Entry.verified)

/-- What a command does with an avatar. -/
def Task.respond (options : Options) (a : Avatar) : Task → Response
  | .analyze => .print a.analyze.text
  | .compress =>
    match compressText options a with
    | .error e => .fail e.message
    | .ok text =>
      match options.output with
      | some path => .write path text
      | none => .print (text ++ "\n")
  | .verify =>
    match verifyText options a with
    | .error e => .fail e.message
    | .ok text => .print text

/-- What a command does with the text it reads. -/
def Task.respondTo (options : Options) (text : String) (task : Task) : Response :=
  match Avatar.parse text with
  | .error cause => .fail ((Avatar.complaint? cause).getD "Malformed avatar description")
  | .ok a => task.respond options a

end AvatarBits
