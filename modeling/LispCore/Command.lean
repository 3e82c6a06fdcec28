import LispCore.Code.Listing
import LispCore.Data.Json.Reader
import LispCore.Data.Load
import LispCore.Data.Yaml
import LispCore.Session

/-!
# The command line

A command runs a serialized tree, shows its code, or checks it and reports on its
variables. What a command answers depends on its arguments and on the files it reads, and
on nothing else: `Command.respond` is given the files as a function.
-/

namespace LispCore

/-- What to do with a tree. -/
inductive Action where
  /-- Run the tree and print its value. -/
  | run (mode : Mode)
  /-- Print the code of the tree. -/
  | disassemble
  /-- Resolve the tree and print how its variables are used. -/
  | check
deriving DecidableEq

/-- A command. -/
structure Command where
  action : Action
  file : String
  /-- A file of session options. -/
  config : Option String := none
  /-- Keep all jumps, whatever the options say. -/
  noElide : Bool := false
deriving DecidableEq

/-! ### Arguments -/

/-- An argument by its form. -/
inductive Argument where
  /-- A value: anything without a dash in front, and a dash alone. -/
  | value (s : String)
  /-- A long option, with what follows its equals sign. -/
  | option (name : String) (value : Option String)
  /-- Two dashes, after which all arguments are values. -/
  | separator
  /-- A short option. -/
  | short

/-- The form of an argument. -/
def Argument.ofString (s : String) : Argument :=
  match s.toList with
  | ['-', '-'] => .separator
  | '-' :: '-' :: cs =>
    match cs.span (· != '=') with
    | (name, []) => .option (String.ofList name) none
    | (name, _ :: text) => .option (String.ofList name) (some (String.ofList text))
  | ['-'] => .value s
  | '-' :: _ => .short
  | _ => .value s

/-- What has been given so far, each option once at most. -/
structure Given where
  config : Option String := none
  noElide : Bool := false
  mode : Option Mode := none
  files : List String := []

/-- A path may not leave its directory through a parent. -/
def pathAllowed (path : String) : Bool :=
  !(path.splitOn "/").contains ".."

namespace Given

/-- Takes the file of session options. -/
def setConfig (g : Given) (path : String) : Option Given :=
  if g.config.isSome || !pathAllowed path then none else some { g with config := some path }

/-- Takes the mode. -/
def setMode (g : Given) (name : String) : Option Given := do
  let mode ← Mode.ofName? name
  if g.mode.isSome then none else some { g with mode := some mode }

/-- Takes an option. `inline` is what follows its equals sign and `rest` the arguments
behind it, one of which it may use up. -/
def setOption (g : Given) (withMode : Bool) (name : String) (inline : Option String)
    (rest : List String) : Option (Given × Bool) :=
  let next := rest.head?.bind fun s =>
    match Argument.ofString s with
    | .value v => some v
    | _ => none
  let valued (set : String → Option Given) : Option (Given × Bool) :=
    match inline, next with
    | some v, _ => (set v).map (·, false)
    | none, some v => (set v).map (·, true)
    | none, none => none
  match name with
  | "config" => valued g.setConfig
  | "mode" => if withMode then valued g.setMode else none
  | "no-elide" =>
    if g.noElide || inline.isSome then none else some ({ g with noElide := true }, false)
  | _ => none

/-- Takes a file. -/
def addFile (g : Given) (path : String) : Option Given :=
  if pathAllowed path then some { g with files := g.files ++ [path] } else none

/-- The arguments of an action. The flag says that the next argument was used up as the
value of an option. -/
def actionArgs (withMode : Bool) : List String → Bool → Given → Option Given
  | [], _, g => some g
  | _ :: rest, true, g => actionArgs withMode rest false g
  | s :: rest, false, g =>
    match Argument.ofString s with
    | .value path => do actionArgs withMode rest false (← g.addFile path)
    | .separator => rest.foldlM Given.addFile g
    | .short => none
    | .option name inline => do
      let (g, used) ← g.setOption withMode name inline rest
      actionArgs withMode rest used g

/-- The arguments before the action, its name, and those behind it. -/
def commonArgs : List String → Bool → Given → Option (Given × String × List String)
  | [], _, _ => none
  | _ :: rest, true, g => commonArgs rest false g
  | s :: rest, false, g =>
    match Argument.ofString s with
    | .value action => some (g, action, rest)
    | .separator | .short => none
    | .option name inline => do
      let (g, used) ← g.setOption false name inline rest
      commonArgs rest used g

end Given

namespace Command

/-- The command that some arguments spell, if they spell one. Options that are common to
all actions may stand before or behind the name of the action; behind it they win. -/
def parse? (args : List String) : Option Command := do
  let (before, name, rest) ← Given.commonArgs args false {}
  let behind ← Given.actionArgs (name == "run") rest false {}
  let action ←
    match name with
    | "run" => some (.run (behind.mode.getD .interpret))
    | "disasm" => some .disassemble
    | "check" => some .check
    | _ => none
  match behind.files with
  | [file] =>
    return {
      action
      file
      config := behind.config.or before.config
      noElide := before.noElide || behind.noElide }
  | _ => none

/-- The files that a command may read. -/
def paths (c : Command) : List String :=
  c.config.toList ++ [c.file]

end Command

/-! ### Answers -/

/-- What a command prints, or why it fails. -/
abbrev Answer := Except String String

/-- The deepest nesting that a JSON tree may have. -/
def maxNesting : Nat := 127

/-- How a file with a JSON tree is read. -/
def fileRules : Json.Rules :=
  { nesting := some maxNesting, conversion := .scaled }

/-- The last part of a path that is a name. -/
def fileName? (path : String) : Option String :=
  ((path.splitOn "/").filter fun s => s != "" && s != ".").getLast?

/-- The extension of a path: what follows the last dot of its name, unless the name has no
other character in front of that dot. -/
def extension? (path : String) : Option String := do
  let name ← fileName? path
  match (name.splitOn ".").reverse with
  | [] | [_] | [_, ""] => none
  | ext :: _ => some ext

/-- Whether the file holds YAML, which its extension tells. -/
def isYaml (path : String) : Bool :=
  extension? path == some "yaml" || extension? path == some "yml"

namespace Command

/-- The options that a text of settings gives. -/
def options? (text : String) : Option Options := do
  let d ← Toml.read? text
  ((Options.load d).run {}).1.toOption

/-- The options of the session in which a command works. -/
def sessionOptions (c : Command) (read : String → Option String) : Except String Options := do
  let options ←
    match c.config with
    | none => .ok {}
    | some path =>
      match read path with
      | none => .error ("failed to read " ++ path)
      | some text =>
        match options? text with
        | none => .error ("in " ++ path)
        | some o => .ok o
  return if c.noElide then { options with elide := false } else options

/-- The tree in a text, and the supply of ids after loading it. -/
def tree? (yaml : Bool) (text : String) (supply : IdSupply) : Option (Node × IdSupply) := do
  let d ← if yaml then Yaml.read? text else Json.read? fileRules text
  match (Node.load d).run supply with
  | (.ok n, supply) => some (n, supply)
  | (.error _, _) => none

/-- Loads the tree of a command into a session. -/
def loadTree (c : Command) (read : String → Option String) (s : Session) :
    Except String (Node × Session) :=
  match read c.file with
  | none => .error ("Failed to read file '" ++ c.file ++ "'")
  | some text =>
    match tree? (isYaml c.file) text s.globals.supply with
    | some (n, supply) => .ok (n, { s with globals := { s.globals with supply } })
    | none =>
      let format := if isYaml c.file then "YAML" else "JSON"
      .error ("Invalid " ++ format ++ " tree in '" ++ c.file ++ "'")

/-- One line of the report on variables. -/
def useLine (x : Variable) (n : UseCount) : String :=
  padRight 16 x.label ++ " " ++ padRight 18 x.kind.describe ++ " reads=" ++ toString n.reads ++
    " writes=" ++ toString n.writes ++ "\n"

/-- The report on a program: how its variables are used, by id, and its slots. -/
def report (p : Program) : String :=
  p.body.uses.toList.foldl (fun text (_, x, n) => text ++ useLine x n) "" ++
    "ok: " ++ toString p.layout.slots ++ " slot(s)\n"

/-- The answer of a command, where `read` gives the files that can be read. -/
def respond (c : Command) (read : String → Option String) : Answer := do
  let options ← c.sessionOptions read
  let (tree, s) ← c.loadTree read (.new options {})
  match c.action with
  | .run mode =>
    match s.run tree mode with
    | (.ok v, _) => return v.display ++ "\n"
    | (.error f, _) => .error f.message
  | .disassemble =>
    match s.resolve tree >>= s.compile with
    | .ok code => return code.listing
    | .error f => .error f.message
  | .check =>
    match s.resolve tree with
    | .ok p => return report p
    | .error f => .error f.message

end Command

end LispCore
