import Clausal.Settings.Value
import Clausal.Text.Case
import Clausal.Text.Quoted
import Clausal.Text.Word

/-!
# Log levels and log formats

A log level is given by its name, in upper or lower case, or by its number.  A log format is a text
with fields to be filled in, such as `%(message)s`.

## Main definitions

- `Setting.logLevel`
- `hasField`, `Setting.checkLogFormat`
- `logSetup`: the log level, if the settings allow to set up logging
-/

namespace Clausal

/-! ## Section 1: Levels -/

/-- Why logging cannot be set up. -/
inductive LogError where
  /-- No level has this name, which is given in upper case. -/
  | unknownLevel (name : String)
  /-- The level is neither a name nor a number. -/
  | notALevel
  /-- The format is a text without a field. -/
  | noField
  /-- The format is no text. -/
  | notAFormat
  deriving DecidableEq, Repr, Inhabited

/-- The message of an error, if it has one. -/
def LogError.message? : LogError → Option String
  | .unknownLevel name => some ("Unknown level: " ++ quoteText ("Level " ++ name))
  | _ => none

/-- The named log levels. -/
def logLevels : List (String × Int) :=
  [("CRITICAL", 50), ("FATAL", 50), ("ERROR", 40), ("WARNING", 30), ("WARN", 30), ("INFO", 20),
    ("DEBUG", 10), ("NOTSET", 0)]

/-- The log level that a value gives: the number of a name, or the value itself if it is a number
    or a truth value. -/
def Setting.logLevel : Setting → Except LogError Setting
  | .text s =>
    match logLevels.lookup (upperCase s) with
    | some n => .ok (.int n)
    | none => .error (.unknownLevel (upperCase s))
  | .int n => .ok (.int n)
  | .bool b => .ok (.bool b)
  | _ => .error .notALevel

/-! ## Section 2: Formats -/

/-- The letters that end a field, in upper and lower case. -/
def fieldEnds : List Char :=
  "diouxefgcrsa%DIOUXEFGCRSAİıſ".toList

/-- What may stand for a width or a precision: a star or digits; the rest after it. -/
def dropWidth : List Char → List Char
  | '*' :: cs => cs
  | cs => cs.dropWhile digitRanges.covers

/-- Whether the rest of a field ends well: a width, a precision after a point, and a letter. -/
def endsField (cs : List Char) : Bool :=
  let cs := dropWidth cs
  let rest := match cs with
    | '.' :: p => if (dropWidth p).length < p.length then dropWidth p else cs
    | cs => cs
  (rest.head?.map fieldEnds.contains).getD false

/-- Whether a text starts with a field: a name in parentheses after a percent sign, flags, and the
    rest of a field. -/
def startsWithField : List Char → Bool
  | '%' :: '(' :: cs =>
    let rest := cs.dropWhile wordRanges.covers
    rest.length < cs.length && rest.head? = some ')'
      && endsField ((rest.drop 1).dropWhile "#0+ -".toList.contains)
  | _ => false

/-- Whether a text has a field. -/
def hasField : List Char → Bool
  | [] => false
  | c :: cs => startsWithField (c :: cs) || hasField cs

/-- Check a log format.  A void one is replaced by a default and always good. -/
def Setting.checkLogFormat : Setting → Except LogError Unit
  | .text s => if s = "" || hasField s.toList then .ok () else .error .noField
  | v => if v.isVoid then .ok () else .error .notAFormat

/-! ## Section 3: Setting up -/

/-- The log level, if the settings allow to set up logging with it.  Without a level it is the one
    of the settings. -/
def Setting.logSetup (settings : Setting) (level : Setting) : Except LogError Setting := do
  let level ← match level with
    | .null => ((settings.get? "logging.level").getD (.text "WARNING")).logLevel
    | l => l.logLevel
  ((settings.get? "logging.format").getD .null).checkLogFormat
  return level

end Clausal
