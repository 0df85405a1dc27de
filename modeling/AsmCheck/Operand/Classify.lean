import AsmCheck.Flag
import AsmCheck.Operand

/-! # Reading operands

    A dollar sign announces an immediate, a percent sign a register; anything
    else is a place in memory, `displacement(registers)`, with an asterisk in
    front when it is indirect.  Reading never fails: what is wrong with the
    spelling is said in flags. -/

namespace AsmCheck

open AsmCheck.Text

namespace MemoryRef

/-- What stands in front of the parenthesis: a number, or a label's name with anything added to or
    subtracted from it. -/
def readDisplacement (cs : List Char) : Option Int × Option String × FlagSet :=
  if cs.isEmpty then (none, none, ∅)
  else
    match Literal.readNumber cs with
    | some (n, _) => (some n, none, ∅)
    | none =>
      let name := cs.takeWhile fun c => c != '+' && c != '-'
      if Literal.isName name then (none, some (String.ofList name), ∅)
      else (none, none, {.incomplete})

/-- One of the parts between parentheses: a register, or a scale, which is not kept. -/
def readPart : List Char → Option Register × FlagSet
  | '%' :: name =>
    match Register.ofName? name with
    | some r => (some r, ∅)
    | none => (none, {.unknownRegister})
  | cs =>
    if (Register.ofName? cs).isSome then (none, {.missingPercent})
    else if (Literal.readNumber cs).isSome then (none, ∅)
    else (none, {.incomplete})

/-- The parts between parentheses, split at commas. -/
def readParts (cs : List Char) : List (Option Register × FlagSet) :=
  (((cs.splitOn ',').map trim).filter fun p => !p.isEmpty).map readPart

/-- All that the text has to say about a place, with the faults of its spelling. -/
def read (indirect : Bool) (cs : List Char) : MemoryRef × FlagSet :=
  let front := cs.takeWhile (· != '(')
  let (displacement, symbol, frontFlags) := readDisplacement front
  let place : MemoryRef :=
    { text := String.ofList cs, symbol, displacement, indirect }
  let flags := frontFlags ∪ EnumSet.when {.missingPercent} (Register.ofName? cs).isSome
  match cs.drop front.length with
  | [] => (place, flags ∪ EnumSet.when {.missingDollar} (displacement.isSome && !indirect))
  | _ :: inner =>
    if inner.getLast? = some ')' then
      let parts := readParts inner.dropLast
      ({ place with registers := parts.filterMap (·.1) },
        parts.foldl (fun fl part => fl ∪ part.2) flags)
    else (place, flags ∪ {.incomplete})

end MemoryRef

namespace Operand

/-- Reads an operand without a dollar sign, after the asterisk if there is one. -/
def readBody (indirect : Bool) (token : List Char) : List Char → Operand × FlagSet
  | [] => (.invalid (String.ofList token), {.incomplete})
  | '%' :: name =>
    match Register.ofName? name with
    | none => (.invalid (String.ofList token), {.unknownRegister})
    | some r =>
      if indirect then
        (.memory { text := String.ofList ('%' :: name), registers := [r], indirect }, ∅)
      else (.register r, ∅)
  | cs =>
    let (place, flags) := MemoryRef.read indirect cs
    (.memory place, flags)

/-- Reads one operand, with the faults of its spelling. -/
def classify : List Char → Operand × FlagSet
  | '$' :: cs =>
    match Immediate.read cs with
    | some v => (.immediate v, ∅)
    | none => (.invalid (String.ofList ('$' :: cs)), {.incomplete})
  | '*' :: cs => readBody true ('*' :: cs) cs
  | cs => readBody false cs cs

end Operand

end AsmCheck
