import StagedLisp.Options
import StagedLisp.Text.Search

/-! Command line arguments. They are read from left to right; asking for the version or for help
counts from where it stands, unless an earlier argument is wrong. -/
namespace StagedLisp.CommandLine

inductive Switch where
  | repl
  | blockOnly
  | noEarlyRelease
  | noReuse
  | noPool
  | freezeCyclic
  | noSupport
deriving DecidableEq, Repr

namespace Switch

def name : Switch → String
  | repl => "repl"
  | blockOnly => "block-only"
  | noEarlyRelease => "no-nll"
  | noReuse => "no-reuse"
  | noPool => "no-stack-alloc"
  | freezeCyclic => "freeze-cyclic"
  | noSupport => "no-runtime"

def all : List Switch :=
  [repl,blockOnly,noEarlyRelease,noReuse,noPool,freezeCyclic,noSupport]

def ofName? (name : String) : Option Switch := all.find? (·.name == name)

end Switch

inductive Amount where
  | poolSize
  | batchSize
  | livenessCap
  | analysisDepth
deriving DecidableEq, Repr

namespace Amount

def name : Amount → String
  | poolSize => "stack-pool-size"
  | batchSize => "deferred-batch-size"
  | livenessCap => "liveness-iteration-cap"
  | analysisDepth => "analysis-depth-limit"

def all : List Amount := [poolSize,batchSize,livenessCap,analysisDepth]

def ofName? (name : String) : Option Amount := all.find? (·.name == name)

end Amount

structure Arguments where
  expr : Option String := none
  switches : List Switch := []
  amounts : List (Amount × Nat) := []
deriving Repr

inductive Stop where
  | version
  | help
  | misuse
deriving DecidableEq, Repr

namespace Arguments

def has (a : Arguments) (s : Switch) : Bool := a.switches.contains s

def amount? (a : Arguments) (kind : Amount) : Option Nat := a.amounts.lookup kind

def options (a : Arguments) : Options :=
  let standard : Options := {}
  { poolSize := (a.amount? .poolSize).getD standard.poolSize
    batchSize := (a.amount? .batchSize).getD standard.batchSize
    livenessCap := (a.amount? .livenessCap).getD standard.livenessCap
    analysisDepth := (a.amount? .analysisDepth).getD standard.analysisDepth
    earlyRelease := !a.has .noEarlyRelease
    reuse := !a.has .noReuse
    poolIntegers := !a.has .noPool
    freezeCyclic := a.has .freezeCyclic
    withSupport := !a.has .noSupport }

def addSwitch (a : Arguments) (s : Switch) : Except Stop Arguments :=
  if a.has s then .error .misuse else .ok { a with switches := a.switches ++ [s] }

def number? (text : String) : Option Nat :=
  let digits := match text.toList with
    | '+' :: rest => rest
    | cs => cs
  if digits.isEmpty || digits.any (!·.isDigit) then none
  else
    let n := digits.foldl (fun n c => 10 * n + (c.toNat - '0'.toNat)) 0
    if n ≤ 18446744073709551615 then some n else none

def addAmount (a : Arguments) (kind : Amount) (text : String) : Except Stop Arguments :=
  match number? text with
  | none => .error .misuse
  | some n =>
    if (a.amount? kind).isSome then .error .misuse
    else .ok { a with amounts := a.amounts ++ [(kind,n)] }

def addExpr (a : Arguments) (text : String) : Except Stop Arguments :=
  if a.expr.isSome then .error .misuse else .ok { a with expr := some text }

/-- A cluster of one-letter options; only the verbosity, which has no effect on results, may be
repeated. -/
def letters (a : Arguments) : List Char → Except Stop Arguments
  | [] => .ok a
  | 'v' :: rest => letters a rest
  | 'V' :: _ => .error .version
  | 'h' :: _ => .error .help
  | _ :: _ => .error .misuse

def word (a : Arguments) (name : String) : Except Stop Arguments :=
  match name with
  | "verbose" => .ok a
  | "version" => .error .version
  | "help" => .error .help
  | _ =>
    match Switch.ofName? name with
    | some s => a.addSwitch s
    | none => .error .misuse

def assignment (a : Arguments) (name value : String) : Except Stop Arguments :=
  match Amount.ofName? name with
  | some kind => a.addAmount kind value
  | none => .error .misuse

def cut? (text : String) : Option (String × String) :=
  let cs := text.toList
  if cs.contains '=' then
    some (String.ofList (cs.takeWhile (· != '=')),String.ofList ((cs.dropWhile (· != '=')).drop 1))
  else none

def plain (a : Arguments) : List String → Except Stop Arguments
  | [] => .ok a
  | text :: rest => do plain (← a.addExpr text) rest

def read (a : Arguments) : List String → Except Stop Arguments
  | [] => .ok a
  | text :: rest =>
    if text = "--" then a.plain rest
    else match Text.after? "--" text with
      | some long =>
        match cut? long with
        | some (name,value) => do read (← a.assignment name value) rest
        | none =>
          match Amount.ofName? long with
          | some kind =>
            match rest with
            | [] => .error .misuse
            | value :: rest => do read (← a.addAmount kind value) rest
          | none => do read (← a.word long) rest
      | none =>
        match text.toList with
        | '-' :: c :: cs => do read (← a.letters (c :: cs)) rest
        | _ => do read (← a.addExpr text) rest

/-- The arguments of a command line. A session cannot be given an expression. -/
def ofList (args : List String) : Except Stop Arguments := do
  let a ← read {} args
  if a.has .repl && a.expr.isSome then .error .misuse else .ok a

end Arguments

end StagedLisp.CommandLine
