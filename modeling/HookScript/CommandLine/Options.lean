/-
Words of a command line as options and operands.

An option has a long name, `--name`, and perhaps a short one, `-n`.  It is a flag, or its value is
an integer within bounds: the rest of its own word, after `=` or after the short name, or else the
next word; a word that begins with a hyphen is a value only in its own word, or where it is a
negative number and the option takes such.  Flags may share a word.  After `--` all words are
operands.  Words are judged in order: what is wrong with a word in front of a request for help is
told instead of the help.

* `Options.read` sorts words into options and operands, or says that they are misused.
-/
namespace HookScript

/-- An option of a command. -/
structure OptionSpec where
  long : String
  short : Option Char := none
  /-- the least and the greatest value; a flag has none -/
  bounds : Option (Int × Int) := none
  /-- whether the next word can be the value when it is a negative number -/
  takesNegative : Bool := false
  repeatable : Bool := false
deriving DecidableEq, Repr

namespace Options

/-- What has been read of a command line. -/
structure Found where
  /-- options that were given, with their values; flags have none -/
  values : List (String × Option Int) := []
  operands : List String := []
deriving DecidableEq, Repr

/-- Why reading ends before the words do. -/
inductive Stop where
  | misuse
  | help
  | version
deriving DecidableEq, Repr

/-- The long name of the option that asks for help. -/
def helpName : String := "help"

/-- The long name of the option that asks for the version. -/
def versionName : String := "version"

/-- Whether `cs` are the digits of a number without sign, perhaps with a fraction and an
exponent. -/
def isUnsignedNumber (cs : List Char) : Bool :=
  let mantissa := cs.takeWhile (· ≠ 'e')
  let exponent := cs.drop (mantissa.length + 1)
  let whole := mantissa.takeWhile (· ≠ '.')
  let fraction := mantissa.drop (whole.length + 1)
  let plain := mantissa.length = cs.length
  (whole ++ fraction ++ exponent).all Char.isDigit &&
    (whole.length = mantissa.length || !whole.isEmpty) &&
    (plain || !mantissa.isEmpty && !exponent.isEmpty)

/-- Whether the word is a negative number. -/
def isNegativeNumber (word : List Char) : Bool :=
  match word with
  | '-' :: cs => isUnsignedNumber cs
  | _ => false

/-- Whether the word could be options: it begins with a hyphen and is longer. -/
def isOptionLike (word : List Char) : Bool :=
  match word with
  | '-' :: _ :: _ => true
  | _ => false

/-- The integer that a word writes: digits after at most one sign. -/
def integer? (word : String) : Option Int :=
  let (negative, digits) :=
    match word.toList with
    | '-' :: digits => (true, digits)
    | '+' :: digits => (false, digits)
    | digits => (false, digits)
  if !digits.isEmpty && digits.all Char.isDigit then
    let n : Int := digits.foldl (fun n c => n * 10 + (c.toNat - '0'.toNat)) 0
    some (if negative then -n else n)
  else
    none

/-- The integer that a word writes, if it lies within the bounds. -/
def integerWithin? (bounds : Int × Int) (word : String) : Option Int :=
  (integer? word).filter fun n => bounds.1 ≤ n ∧ n ≤ bounds.2

/-- Enters an option with its value, or a flag. -/
def enter (f : Found) (o : OptionSpec) (value : Option Int) : Except Stop Found :=
  if o.long = helpName then .error .help
  else if o.long = versionName then .error .version
  else if !o.repeatable && (f.values.map (·.1)).contains o.long then .error .misuse
  else .ok { f with values := f.values ++ [(o.long, value)] }

/-- Enters an option whose value a word writes. -/
def enterWord (f : Found) (o : OptionSpec) (word : String) : Except Stop Found :=
  match o.bounds.bind (integerWithin? · word) with
  | some n => enter f o (some n)
  | none => .error .misuse

/-- Reads a word of short options; the answer may be an option that waits for its value. -/
def readShort (specs : List OptionSpec) (f : Found) :
    List Char → Except Stop (Found × Option OptionSpec)
  | [] => .ok (f, none)
  | c :: cs =>
    match specs.find? fun o => o.short == some c with
    | none => .error .misuse
    | some o =>
      match o.bounds, cs with
      | none, _ =>
        match enter f o none with
        | .error stop => .error stop
        | .ok f => readShort specs f cs
      | some _, [] => .ok (f, some o)
      | some _, '=' :: value => (enterWord f o (String.ofList value)).map (·, none)
      | some _, value => (enterWord f o (String.ofList value)).map (·, none)

/-- Reads a long option; the answer may be an option that waits for its value. -/
def readLong (specs : List OptionSpec) (f : Found) (word : List Char) :
    Except Stop (Found × Option OptionSpec) :=
  let name := word.takeWhile (· ≠ '=')
  let attached := word.drop name.length
  match specs.find? fun o => o.long == String.ofList name with
  | none => .error .misuse
  | some o =>
    match o.bounds, attached with
    | none, [] => (enter f o none).map (·, none)
    | none, _ :: _ => .error .misuse
    | some _, [] => .ok (f, some o)
    | some _, _ :: value => (enterWord f o (String.ofList value)).map (·, none)

/-- Reads a word of options. -/
def readOption (specs : List OptionSpec) (f : Found) (word : List Char) :
    Except Stop (Found × Option OptionSpec) :=
  match word with
  | '-' :: '-' :: name => readLong specs f name
  | _ :: shorts => readShort specs f shorts
  | [] => .error .misuse

/-- Enters an operand; there are at most `limit`, and none is empty. -/
def enterOperand (limit : Nat) (f : Found) (word : String) : Except Stop Found :=
  if limit ≤ f.operands.length || word.isEmpty then .error .misuse
  else .ok { f with operands := f.operands ++ [word] }

/-- Reads words up to the end, when the option `waiting` still lacks its value. -/
def readFrom (specs : List OptionSpec) (limit : Nat) (f : Found) (waiting : Option OptionSpec) :
    List String → Except Stop Found
  | [] => if waiting.isSome then .error .misuse else .ok f
  | word :: words =>
    let cs := word.toList
    match waiting with
    | some o =>
      if isOptionLike cs && !(o.takesNegative && isNegativeNumber cs) then .error .misuse
      else
        match enterWord f o word with
        | .error stop => .error stop
        | .ok f => readFrom specs limit f none words
    | none =>
      if word = "--" then words.foldlM (enterOperand limit) f
      else if isOptionLike cs then
        match readOption specs f cs with
        | .error stop => .error stop
        | .ok (f, waiting) => readFrom specs limit f waiting words
      else
        match enterOperand limit f word with
        | .error stop => .error stop
        | .ok f => readFrom specs limit f none words

/-- Reads the words of a command that has the given options and at most `limit` operands. -/
def read (specs : List OptionSpec) (limit : Nat) (words : List String) : Except Stop Found :=
  readFrom specs limit {} none words

/-- Whether an option was given. -/
def Found.has (f : Found) (o : OptionSpec) : Bool :=
  f.values.any fun v => v.1 == o.long

/-- All values of an option, in order. -/
def Found.valuesOf (f : Found) (o : OptionSpec) : List Int :=
  f.values.filterMap fun v => if v.1 = o.long then v.2 else none

end Options

end HookScript
