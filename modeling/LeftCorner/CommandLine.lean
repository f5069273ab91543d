import LeftCorner.Arithmetic
import LeftCorner.Text.Quoted

/-!
# The command line

The program parses tokens given as arguments with the grammar of arithmetic. Options may stand anywhere
among the tokens; behind `--` all arguments are tokens. Arguments are read from left to right, and the
first that asks for help, asks for the version or is wrong decides.
-/

namespace LeftCorner.CommandLine

/-- What the arguments ask for. -/
structure Options where
  /-- The rule to parse the tokens as. -/
  rule : RuleName
  /-- Splits every token into one token for each character. -/
  chars : Bool
  /-- Shows the whole tree and not only how the tokens group. -/
  tree : Bool
  tokens : List String

inductive UsageError where
  | unknownOption (argument : String)
  | repeatedOption (option : String)
  | missingValue (option : String)
  | unexpectedValue (option : String)
deriving DecidableEq

def UsageError.message : UsageError → String
  | unknownOption a => "unexpected argument '" ++ a ++ "' found"
  | repeatedOption o => "the argument '" ++ o ++ "' cannot be used multiple times"
  | missingValue o => "a value is required for '" ++ o ++ "' but none was supplied"
  | unexpectedValue o => "unexpected value for '" ++ o ++ "' found; no more were expected"

/-- What the arguments come to. -/
inductive Request where
  | parse (options : Options)
  | help
  | version
  | wrong (error : UsageError)

/-- The options without a value. -/
inductive Switch where
  | chars
  | tree
  | help
  | version
deriving DecidableEq

def Switch.name : Switch → String
  | chars => "--chars"
  | tree => "--tree"
  | help => "--help"
  | version => "--version"

def Switch.ofName? (name : List Char) : Option Switch :=
  [chars, tree, help, version].find? fun s => s.name.toList == name

/-- What an argument is by itself. -/
inductive Argument where
  | token (text : String)
  /-- All arguments behind it are tokens. -/
  | onlyTokens
  /-- The rule is the argument behind it. -/
  | rule
  | ruleIs (name : RuleName)
  | switch (switch : Switch)
  | wrong (error : UsageError)

/-- Reads one argument. A lone hyphen is a token, and so is the empty text. An option may be joined to a
value by `=`, and the letters for help and version to further letters. -/
def Argument.ofText (text : String) : Argument :=
  let cs := text.toList
  let name := cs.takeWhile (· != '=')
  let joined := name.length < cs.length
  match cs with
  | ['-', '-'] => onlyTokens
  | '-' :: c :: _ =>
    if name = "--rule".toList then
      if joined then ruleIs (String.ofList (cs.drop (name.length + 1))) else rule
    else match Switch.ofName? name with
      | some s => if joined then wrong (.unexpectedValue s.name) else switch s
      | none =>
        if c = 'h' then switch .help
        else if c = 'V' then switch .version
        else wrong (.unknownOption text)
  | _ => token text

/-- The options and tokens read so far, the tokens last first. -/
structure Draft where
  rule? : Option RuleName
  /-- Whether the next argument has to be the rule. -/
  awaitsRule : Bool
  chars : Bool
  tree : Bool
  tokens : List String

namespace Draft

def start : Draft := ⟨none, false, false, false, []⟩

/-- What has been read if no argument is left. -/
def finish (d : Draft) : Request :=
  if d.awaitsRule then .wrong (.missingValue "--rule")
  else .parse ⟨d.rule?.getD "block", d.chars, d.tree, d.tokens.reverse⟩

/-- Sets the rule, unless it has been set before. -/
def setRule (d : Draft) (name : RuleName) : Except Request Draft :=
  if d.rule?.isSome then .error (.wrong (.repeatedOption "--rule"))
  else .ok { d with rule? := some name, awaitsRule := false }

/-- Reads an argument that comes where a rule has to come: anything but a token leaves the rule missing. -/
def addRule (d : Draft) : Argument → Except Request Draft
  | .token name => d.setRule name
  | _ => .error (.wrong (.missingValue "--rule"))

/-- Reads an argument of any kind, or finds what the arguments come to whatever follows. -/
def addAny (d : Draft) : Argument → Except Request Draft
  | .token t => .ok { d with tokens := t :: d.tokens }
  | .onlyTokens => .ok d
  | .rule => .ok { d with awaitsRule := true }
  | .ruleIs name => d.setRule name
  | .switch .chars =>
    if d.chars then .error (.wrong (.repeatedOption Switch.chars.name)) else .ok { d with chars := true }
  | .switch .tree =>
    if d.tree then .error (.wrong (.repeatedOption Switch.tree.name)) else .ok { d with tree := true }
  | .switch .help => .error .help
  | .switch .version => .error .version
  | .wrong e => .error (.wrong e)

end Draft

def read (d : Draft) : List String → Request
  | [] => d.finish
  | text :: rest =>
    match Argument.ofText text with
    | .onlyTokens => { d with tokens := rest.reverse ++ d.tokens }.finish
    | a =>
      match if d.awaitsRule then d.addRule a else d.addAny a with
      | .ok d => read d rest
      | .error request => request

/-- What the arguments ask for, from left to right. -/
def request (arguments : List String) : Request := read .start arguments

/-- What the program writes, and the code it exits with. -/
structure Report where
  code : Nat
  output : String
  complaint : String := ""

def helpText : String := String.join <| List.map (· ++ "\n") [
  "Left-corner precedence parser demo",
  "",
  "Usage: angulus [OPTIONS] [TOKENS]...",
  "",
  "Arguments:",
  "  [TOKENS]...  Input tokens",
  "",
  "Options:",
  "      --rule <RULE>  Rule to parse the input as [default: block]",
  "      --chars        Split every argument into one token per character",
  "      --tree         Print the full tree instead of the bracketed rendering",
  "  -h, --help         Print help",
  "  -V, --version      Print version"]

/-- Parses tokens, and shows the tokens, the parse and what is left over. The code tells whether there is a
parse. -/
def parse (o : Options) : Report :=
  let tokens := if o.chars then o.tokens.flatMap Arithmetic.tokenize else o.tokens
  let pending := Pending.ofTokens tokens Pending.endMarker
  let grammar := Arithmetic.grammar
  let result := grammar.parse (grammar.allowance pending) o.rule .standard pending
  let shown := match result.value? with
    | some tree => if o.tree then tree.text else tree.render
    | none => Tree.renderOption none
  let leftovers := match result.rest?.getD [] with
    | [] => ""
    | rest => "leftovers " ++ Pending.text rest ++ "\n"
  ⟨if result.value?.isSome then 0 else 1,
    "input " ++ Text.Quoted.encodeList tokens ++ "\ntree " ++ shown ++ "\n" ++ leftovers, ""⟩

def run (arguments : List String) : Report :=
  match request arguments with
  | .parse options => parse options
  | .help => ⟨0, helpText, ""⟩
  | .version => ⟨0, "angulus 0.1.0\n", ""⟩
  | .wrong error => ⟨2, "", "error: " ++ error.message ++ "\n"⟩

end LeftCorner.CommandLine
