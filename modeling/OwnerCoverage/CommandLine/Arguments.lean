/-!
# Arguments of the command line

Arguments are read from left to right. The first fault, or the first request for the version or for
help, ends the reading. An option takes its value from the rest of its own argument, after `=` or,
for a short option, right behind its letter; otherwise the next argument is its value, unless that
looks like an option. After `--` every argument is the path of a root. Some options stand at most
once, and paths are never empty.
-/

namespace OwnerCoverage

namespace CommandLine

/-- The options that take a value. -/
inductive Flag where
  | rulesFile
  | format
  | rulesDirectory
  | exclude
  | remoteUrl
  | revision
deriving DecidableEq, Repr

/-- What the arguments of a run ask for. Paths are texts here: a path whose bytes are no text, which
a host could pass on, cannot be given. -/
structure Arguments where
  roots : List String := []
  rulesFile : Option String := none
  format : Option String := none
  rulesDirectories : List String := []
  excludes : List String := []
  remoteUrl : Option String := none
  revision : Option String := none
deriving DecidableEq, Repr

/-- What is wrong with an argument. -/
inductive ArgumentFault where
  | unknownOption (argument : String)
  | missingValue (flag : Flag)
  | unexpectedValue (argument : String)
  | repeatedOption (flag : Flag)
  | emptyPath
deriving DecidableEq, Repr

/-- What a run is asked to do. -/
inductive Request where
  | version
  | help
  | report (arguments : Arguments)
deriving DecidableEq, Repr

/-- The option with a long name, which two dashes precede. -/
def Flag.ofName? (name : List Char) : Option Flag :=
  match String.ofList name with
  | "file" => some .rulesFile
  | "format" => some .format
  | "rules-dir" => some .rulesDirectory
  | "exclude" => some .exclude
  | "remote-url" => some .remoteUrl
  | "sha" => some .revision
  | _ => none

/-- The option with a letter, which one dash precedes. -/
def Flag.ofLetter? : Char → Option Flag
  | 'f' => some .rulesFile
  | 'F' => some .format
  | _ => none

/-- Sets a value that is given at most once. -/
def setOnce (flag : Flag) (value : String) : Option String → Except ArgumentFault (Option String)
  | none => .ok (some value)
  | some _ => .error (.repeatedOption flag)

/-- Sets an option. A path to the rules file is not empty. -/
def Arguments.set (arguments : Arguments) (flag : Flag) (value : String) :
    Except ArgumentFault Arguments :=
  match flag with
  | .rulesFile =>
      match setOnce flag value arguments.rulesFile with
      | .error fault => .error fault
      | .ok rulesFile =>
          if value.isEmpty then .error .emptyPath
          else .ok { arguments with rulesFile := rulesFile }
  | .format =>
      (setOnce flag value arguments.format).map fun format => { arguments with format := format }
  | .rulesDirectory =>
      .ok { arguments with rulesDirectories := arguments.rulesDirectories ++ [value] }
  | .exclude => .ok { arguments with excludes := arguments.excludes ++ [value] }
  | .remoteUrl =>
      (setOnce flag value arguments.remoteUrl).map fun url => { arguments with remoteUrl := url }
  | .revision =>
      (setOnce flag value arguments.revision).map fun revision =>
        { arguments with revision := revision }

/-- Adds the path of a root, which is not empty. -/
def Arguments.addRoot (arguments : Arguments) (path : String) :
    Except ArgumentFault Arguments :=
  if path.isEmpty then .error .emptyPath
  else .ok { arguments with roots := arguments.roots ++ [path] }

/-- Adds the paths of roots in order, up to the first that is empty. -/
def Arguments.addRoots (arguments : Arguments) : List String → Except ArgumentFault Arguments
  | [] => .ok arguments
  | path :: rest =>
      match arguments.addRoot path with
      | .error fault => .error fault
      | .ok arguments => arguments.addRoots rest

/-- What an argument is, if it is not the value of the option before it. -/
inductive ArgumentKind where
  /-- Every argument behind it is a path. -/
  | separator
  | version
  | help
  /-- An option, with its value if the argument holds one. -/
  | option (flag : Flag) (value : Option String)
  | path
  | faulty (fault : ArgumentFault)
deriving DecidableEq, Repr

/-- What an argument is that starts with two hyphens. -/
def ArgumentKind.ofLong (argument : String) (body : List Char) : ArgumentKind :=
  let name := body.takeWhile (· != '=')
  let value := match body.dropWhile (· != '=') with
    | [] => none
    | _ :: value => some (String.ofList value)
  match Flag.ofName? name, String.ofList name, value with
  | some flag, _, value => .option flag value
  | none, "version", none => .version
  | none, "help", none => .help
  | none, "version", some _ => .faulty (.unexpectedValue argument)
  | none, "help", some _ => .faulty (.unexpectedValue argument)
  | none, _, _ => .faulty (.unknownOption argument)

/-- What an argument of one dash and a letter is. All behind an option's letter is its value. -/
def ArgumentKind.ofShort (argument : String) (letter : Char) (body : List Char) : ArgumentKind :=
  match Flag.ofLetter? letter, letter, body with
  | some flag, _, [] => .option flag none
  | some flag, _, '=' :: value => .option flag (some (String.ofList value))
  | some flag, _, value => .option flag (some (String.ofList value))
  | none, 'V', _ => .version
  | none, 'h', _ => .help
  | none, _, _ => .faulty (.unknownOption argument)

/-- What an argument is. A hyphen alone is a path. -/
def ArgumentKind.ofText (argument : String) : ArgumentKind :=
  match argument.toList with
  | ['-', '-'] => .separator
  | '-' :: '-' :: body => .ofLong argument body
  | '-' :: letter :: body => .ofShort argument letter body
  | _ => .path

/-- Reads arguments from left to right, and adds what they ask for to what has been asked for
before. -/
def readArguments (arguments : Arguments) : List String → Except ArgumentFault Request
  | [] => .ok (.report arguments)
  | argument :: rest =>
      match ArgumentKind.ofText argument with
      | .separator => (arguments.addRoots rest).map .report
      | .version => .ok .version
      | .help => .ok .help
      | .faulty fault => .error fault
      | .path =>
          match arguments.addRoot argument with
          | .error fault => .error fault
          | .ok arguments => readArguments arguments rest
      | .option flag (some value) =>
          match arguments.set flag value with
          | .error fault => .error fault
          | .ok arguments => readArguments arguments rest
      | .option flag none =>
          match rest with
          | [] => .error (.missingValue flag)
          | value :: rest =>
              if ArgumentKind.ofText value ≠ .path then .error (.missingValue flag)
              else
                match arguments.set flag value with
                | .error fault => .error fault
                | .ok arguments => readArguments arguments rest

end CommandLine

end OwnerCoverage
